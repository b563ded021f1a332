import Mathlib.Data.List.TakeWhile
import Sidlc.Grammar
import Sidlc.Library.Escapes

/-!
# The parser recognizes the grammar

Every `parse_*` function succeeds exactly where a sentence of its production comes next, returns
what the sentence denotes and stops behind it. Where all numbers ahead are decimal it raises nothing
but `std::runtime_error`; up to a revision, what else it raises comes from a number that
`std::stoull` refuses and that stands where a number belongs.
-/

namespace Sidlc

open Grammar Decimal StateExcept Sidlc.Parser

namespace Parser

/-! ### The stream of lexemes -/

/-- The state after the current token. -/
def next (p : Parser) : Parser :=
  { lexer := p.lexer.nextToken.2, currentToken := p.lexer.nextToken.1 }

/-- The current token and those after it. -/
def ahead (p : Parser) : List Lexeme :=
  if p.currentToken.type = .endOfFile then []
  else p.currentToken.lexeme :: lexemes p.lexer.rest

/-- Nothing comes after the end. -/
def Valid (p : Parser) : Prop :=
  p.currentToken.type = .endOfFile → lexemes p.lexer.rest = []

theorem scan_type_ne_endOfFile (c : UInt8) (r : Bytes) : (scan c r).1.1 ≠ .endOfFile := by
  unfold scan
  split_ifs
  · exact wordType_ne (by decide) (by decide)
  · cases r with
    | nil => simp
    | cons d r =>
      simp only [scanNumber]
      split_ifs <;> simp
  · simp [scanNumber]
  · simp
  · simp
  · simp

theorem next_of_gap_nil {p : Parser} (h : skipGap p.lexer.rest = []) :
    p.next.currentToken.type = .endOfFile ∧ p.next.lexer.rest = [] := by
  have htoken := p.lexer.nextToken_eq
  rw [h] at htoken
  exact ⟨congrArg (·.1.1) htoken, congrArg Prod.snd htoken⟩

theorem next_of_gap_cons {p : Parser} {c : UInt8} {r : Bytes}
    (h : skipGap p.lexer.rest = c :: r) :
    p.next.currentToken.lexeme = (scan c r).1 ∧ p.next.lexer.rest = (scan c r).2 := by
  have htoken := p.lexer.nextToken_eq
  rw [h] at htoken
  exact ⟨congrArg Prod.fst htoken, congrArg Prod.snd htoken⟩

theorem type_next_of_gap_cons {p : Parser} {c : UInt8} {r : Bytes}
    (h : skipGap p.lexer.rest = c :: r) : p.next.currentToken.type ≠ .endOfFile := by
  intro htype
  have hlexeme : p.next.currentToken.type = (scan c r).1.1 :=
    congrArg Prod.fst (next_of_gap_cons h).1
  exact scan_type_ne_endOfFile c r (hlexeme.symm.trans htype)

/-- What a state sees after its token is what the text holds. -/
theorem ahead_next_eq_lexemes (p : Parser) : p.next.ahead = lexemes p.lexer.rest := by
  cases h : skipGap p.lexer.rest with
  | nil => rw [lexemes_of_gap_nil h, ahead, if_pos (next_of_gap_nil h).1]
  | cons c r =>
    obtain ⟨hlexeme, hrest⟩ := next_of_gap_cons h
    rw [lexemes_of_gap_cons h, ahead, if_neg (type_next_of_gap_cons h), hlexeme, hrest]

theorem valid_next (p : Parser) : p.next.Valid := by
  intro htype
  cases h : skipGap p.lexer.rest with
  | nil =>
    rw [(next_of_gap_nil h).2]
    exact lexemes_of_gap_nil (by rw [skipGap])
  | cons c r => exact absurd htype (type_next_of_gap_cons h)

/-- The parser state as a stream of lexemes. -/
def stream : TokenStream Parser Lexeme where
  valid := Valid
  ahead := ahead
  next := next
  valid_next p _ := p.valid_next
  ahead_next p hv := by
    rw [ahead_next_eq_lexemes, ahead]
    by_cases htype : p.currentToken.type = .endOfFile
    · rw [if_pos htype, hv htype]
      rfl
    · rw [if_neg htype]
      rfl

/-- The rounds given to a loop are more than the lexemes ahead. -/
theorem length_ahead_lt_rounds (p : Parser) : p.ahead.length < p.rounds := by
  have hlen := length_lexemes_le p.lexer.rest
  rw [ahead, rounds, Lexer.left_eq_length]
  split_ifs
  · exact Nat.succ_pos _
  · rw [List.length_cons]
    omega

theorem type_eq_of_ahead {p : Parser} {t : Lexeme} {ts : List Lexeme} (h : p.ahead = t :: ts) :
    p.currentToken.type = t.1 := by
  rw [ahead] at h
  split_ifs at h
  exact congrArg Prod.fst (List.cons.inj h).1

/-- The failures that `parse` reports. -/
def Reported (e : Exn) : Prop :=
  ∃ what, e = .runtimeError what

/-- A decimal numeral whose value fits sixty-four bits. -/
def IsDecimal (text : Bytes) : Prop :=
  text ≠ [] ∧ (∀ c ∈ text, isDigit c = true) ∧ decimalValue text < 2 ^ 64

/-- A number lexeme is decimal. -/
def DecimalLexeme (t : Lexeme) : Prop :=
  t.1 = .number → IsDecimal t.2

/-- The texts that `std::stoull` refuses: they do not begin with a digit, or have a value that does
not fit sixty-four bits. -/
def Refused (text : Bytes) : Prop :=
  text.takeWhile isDigit = [] ∨ 2 ^ 64 ≤ decimalValue (text.takeWhile isDigit)

/-- A number that `std::stoull` refuses, and one that it takes. -/
def Repairs (t t' : Lexeme) : Prop :=
  (t.1 = .number ∧ Refused t.2) ∧ t'.1 = .number ∧ ¬ Refused t'.2

/-- `x` recognizes the production `L`. -/
abbrev Parses {α : Type} (x : Parse α) (L : Lang Lexeme α) : Prop :=
  Recognizes stream DecimalLexeme Reported x L

/-- `x` recognizes `L`, and what it raises on numbers that could be repaired is not reported by
`parse`. -/
abbrev Decides {α : Type} (x : Parse α) (L : Lang Lexeme α) : Prop :=
  Grammar.Decides stream DecimalLexeme Repairs Reported x L

abbrev DecidesAt {α : Type} (x : Parse α) (L : Lang Lexeme α) (p : Parser) : Prop :=
  Grammar.DecidesAt stream DecimalLexeme Repairs Reported x L p

/-- A repair changes no type. -/
theorem Repairs.type_iff {t t' : Lexeme} (h : Repairs t t') (c : TokenType → Prop) :
    c t.1 ↔ c t'.1 := by
  rw [h.1.1, h.2.1]

/-! ### Terminals -/

theorem lexeme_of_ahead {p : Parser} {t : Lexeme} {ts : List Lexeme} (h : p.ahead = t :: ts) :
    p.currentToken.lexeme = t := by
  rw [ahead] at h
  split_ifs at h
  exact (List.cons.inj h).1

theorem endOfFile_of_ahead {p : Parser} (h : p.ahead = []) : p.currentToken.type = .endOfFile := by
  rw [ahead] at h
  split_ifs at h with htype
  exact htype

/-- Only a token of the expected type has a value. -/
theorem type_of_some {α : Type} {type : TokenType} {value : Bytes → Option α} {t : Lexeme} {a : α}
    (h : (if t.1 = type then value t.2 else none) = some a) : t.1 = type := by
  by_contra hne
  exact absurd ((if_neg hne).symm.trans h) (by simp)

theorem expect_bind {α : Type} {type : TokenType} {p : Parser} (h : p.currentToken.type = type)
    (y : Unit → Parse α) : (expect type >>= y) p = y () p := by
  have hexpect : expect type p = .ok ((), p) := by rw [expect, if_neg (by simp [h])]
  rw [bind_of_ok hexpect]

theorem expect_bind_error {α : Type} {type : TokenType} {p : Parser}
    (h : p.currentToken.type ≠ type) (y : Unit → Parse α) :
    (expect type >>= y) p
    = .error (.runtimeError ("Expected token type " ++ toString type.toInt)) :=
  bind_error.2 (.inl (if_pos h))

theorem stoull_eq_none_iff {text : Bytes} : (stoull text).toOption = none ↔ Refused text := by
  unfold stoull Refused
  dsimp only
  split_ifs with hnil hlt
  · exact iff_of_true rfl (.inl hnil)
  · exact iff_of_true rfl (.inr hlt)
  · exact iff_of_false (by simp [Except.toOption]) (not_or.2 ⟨hnil, hlt⟩)

/-- An expected token, of which the text has a value, or is a number that `std::stoull` refuses. -/
theorem decides_expect {α : Type} {type : TokenType} (htype : type ≠ .endOfFile) {y : Parse α}
    (value : Bytes → Option α)
    (hvalue : ∀ text, value text = none ↔ type = .number ∧ Refused text)
    (hsome : ∀ p a, value p.currentToken.text = some a → y p = .ok (a, p.next))
    (hnone : ∀ p, p.currentToken.type = type → value p.currentToken.text = none →
      ∃ e, y p = .error e ∧ ¬ Reported e ∧ ¬ DecimalLexeme p.currentToken.lexeme) :
    Decides (do expect type; y) (.terminal fun t => if t.1 = type then value t.2 else none) := by
  intro p _
  apply DecidesAt.terminal
  · intro t us a hp ha
    obtain rfl := lexeme_of_ahead hp
    have h := type_of_some ha
    rw [expect_bind h]
    exact hsome p a ((if_pos h).symm.trans ha)
  · intro t us hp ha
    obtain rfl := lexeme_of_ahead hp
    by_cases h : p.currentToken.type = type
    · have hval : value p.currentToken.text = none := (if_pos h).symm.trans ha
      obtain ⟨hnumber, hrefused⟩ := (hvalue _).1 hval
      obtain ⟨e, he, hescapes, hbad⟩ := hnone p h hval
      rw [expect_bind h]
      refine ⟨e, he, fun hdec => absurd hdec hbad, iff_of_false hescapes fun hall => ?_⟩
      -- a zero in the place of the number is taken
      have htaken : ¬ Refused (ascii "0") := by rw [← stoull_eq_none_iff]; decide
      have hzero := hall (.number, ascii "0") ⟨⟨h.trans hnumber, hrefused⟩, rfl, htaken⟩
      rw [if_pos hnumber.symm, hvalue] at hzero
      exact absurd hzero.2 htaken
    · refine ⟨_, expect_bind_error h _, fun _ => ⟨_, rfl⟩, iff_of_true ⟨_, rfl⟩ fun t' hrep => ?_⟩
      exact if_neg fun h' => h (hrep.1.1.trans (hrep.2.1.symm.trans h'))
  · intro hp
    have h : p.currentToken.type ≠ type := by rw [endOfFile_of_ahead hp]; exact htype.symm
    exact ⟨_, expect_bind_error h _, _, rfl⟩
  · intro t t' hrep ha
    obtain ⟨a, ha⟩ := Option.isSome_iff_exists.1 ha
    have hnumber : type = .number := (type_of_some ha).symm.trans hrep.2.1
    rw [if_pos (hrep.1.1.trans hnumber.symm), hvalue]
    exact ⟨hnumber, hrep.1.2⟩

theorem decides_consume {type : TokenType} (h : type ≠ .endOfFile ∧ type ≠ .number) :
    Decides (consume type) (Syntax.token type) :=
  decides_expect h.1 (fun _ => some ()) (fun _ => by simp [h.2]) (fun _ _ _ => rfl)
    (fun _ _ h => absurd h (by simp))

theorem decides_identifier : Decides identifier Syntax.identifier := by
  refine decides_expect (by decide) some (fun _ => by simp) (fun p a ha => ?_)
    (fun _ _ h => absurd h (by simp))
  obtain rfl := Option.some.inj ha
  rfl

/-- `std::stoull` takes every decimal numeral. -/
theorem stoull_of_isDecimal {text : Bytes} (h : IsDecimal text) :
    stoull text = .ok (UInt64.ofNat (decimalValue text)) := by
  obtain ⟨hne, hdigits, hlt⟩ := h
  have htake : text.takeWhile isDigit = text := List.takeWhile_eq_self_iff.2 hdigits
  rw [stoull, htake, if_neg hne, if_neg (by omega)]

/-- `std::stoull` fails in another way than the parser does. -/
theorem not_reported_of_stoull {text : Bytes} {e : Exn} (h : stoull text = .error e) :
    ¬ Reported e := by
  rintro ⟨what, rfl⟩
  unfold stoull at h
  dsimp only at h
  split_ifs at h <;> injections

theorem decides_number : Decides number Syntax.number := by
  refine decides_expect (by decide) (fun text => (stoull text).toOption) (fun text => ?_) ?_ ?_
  · rw [stoull_eq_none_iff, eq_self_iff_true, true_and]
  · intro p a ha
    have hok : fromExcept (stoull p.currentToken.text) p = .ok (a, p) := by
      cases h : stoull p.currentToken.text with
      | error e => rw [h] at ha; exact absurd ha (by simp [Except.toOption])
      | ok b => rw [h] at ha; obtain rfl := Option.some.inj ha; rfl
    rw [bind_of_ok (a := p.currentToken.text) rfl, bind_of_ok hok]
    rfl
  · intro p htype ha
    cases h : stoull p.currentToken.text with
    | ok b => rw [h] at ha; exact absurd ha (by simp [Except.toOption])
    | error e =>
      have herror : fromExcept (stoull p.currentToken.text) p = .error e := by rw [h]; rfl
      refine ⟨e, bind_error.2 (.inr ⟨_, _, rfl, bind_error.2 (.inl herror)⟩),
        not_reported_of_stoull h, fun hdec => ?_⟩
      exact absurd ((stoull_of_isDecimal (hdec htype)).symm.trans h) (by simp)

end Parser

/-! ### Productions have sentences -/

namespace Syntax

theorem productive_ofType {α : Type} {type : TokenType} (value : Bytes → Option α) (text : Bytes)
    {a : α} (h : value text = some a) :
    (Lang.terminal fun t : Lexeme => if t.1 = type then value t.2 else none).Productive :=
  Lang.productive_terminal (t := (type, text)) (a := a) (by rw [if_pos rfl, h])

instance (type : TokenType) : (token type).Productive :=
  productive_ofType (fun _ => some ()) [] rfl

instance : identifier.Productive :=
  productive_ofType some [] rfl

instance : string.Productive :=
  productive_ofType some [] rfl

instance : number.Productive :=
  productive_ofType (fun text => (stoull text).toOption) (ascii "0") rfl

instance : type.Productive := by
  have h : IsType ([] ++ [(.identifier, [])]) (.named false 0 []) :=
    .named (.inr ⟨rfl, rfl⟩) ⟨_, rfl, rfl⟩
  exact ⟨_, _, h⟩

instance : direction.Productive := by
  unfold direction
  infer_instance

end Syntax

/-! ### First tokens -/

namespace Syntax

theorem starts_ofType {α : Type} {type : TokenType} (value : Bytes → Option α) :
    (Lang.terminal fun t : Lexeme => if t.1 = type then value t.2 else none).Starts
      (·.1 = type) := by
  exact Lang.starts_terminal fun t a ht => type_of_some ht

theorem starts_ne {α : Type} {L : Lang Lexeme α} {type type' : TokenType}
    (h : L.Starts (·.1 = type)) (hne : type ≠ type') : L.Starts (·.1 ≠ type') :=
  h.mono fun t ht => by rwa [ht]

theorem starts_token (type : TokenType) : (token type).Starts (·.1 = type) :=
  starts_ofType fun _ => some ()

theorem starts_identifier : identifier.Starts (·.1 = .identifier) :=
  starts_ofType some

theorem starts_string : string.Starts (·.1 = .string) :=
  starts_ofType some

theorem starts_number : number.Starts (·.1 = .number) :=
  starts_ofType fun text => (stoull text).toOption

theorem starts_argument :
    argument.Starts fun t => t.1 = .identifier ∨ t.1 = .string ∨ t.1 = .number :=
  ((starts_identifier.bind _).mono fun _ => .inl).or
    (((starts_string.bind _).mono fun _ h => .inr (.inl h)).or
      ((starts_number.bind _).mono fun _ h => .inr (.inr h)))

theorem starts_annotationNode : annotation.Starts (·.1 = op '@') :=
  (starts_token _).bind _

/-- A pointer or an array, as `node` says, in front of which a `const` has been read. -/
def wrapper (keyword : TokenType) (node : TypeNode → TypeNode) : Lang Lexeme TypeNode := do
  token keyword
  token (op '<')
  let innerType ← type
  token (op '>')
  return node innerType

/-- What may follow the optional `const` of a type. -/
def typeBody (isConst : Bool) : Lang Lexeme TypeNode :=
  (wrapper .kwdPtr (.ptr isConst 0)).or
    ((wrapper .kwdArray (.array isConst 0)).or
      (do let name ← identifier; return .named isConst 0 name))

instance (isConst : Bool) : (typeBody isConst).Productive := by
  unfold typeBody
  infer_instance

theorem type_iff (ts : List Lexeme) (t : TypeNode) :
    (constFlag >>= typeBody) ts t ↔ type ts t := by
  constructor
  · rintro ⟨c, cs, _, rfl, hc, h | h | h⟩
    · obtain ⟨_, ks, _, rfl, hk, _, ls, _, rfl, hl, t, ts, _, rfl, ht, _, rs, _, rfl, hr,
        rfl, rfl⟩ := h
      rw [List.append_nil]
      exact .ptr hc hk hl ht hr
    · obtain ⟨_, ks, _, rfl, hk, _, ls, _, rfl, hl, t, ts, _, rfl, ht, _, rs, _, rfl, hr,
        rfl, rfl⟩ := h
      rw [List.append_nil]
      exact .array hc hk hl ht hr
    · obtain ⟨name, ts, _, rfl, hname, rfl, rfl⟩ := h
      rw [List.append_nil]
      exact .named hc hname
  · intro h
    cases h with
    | named hc hname =>
      exact ⟨_, _, _, rfl, hc, .inr (.inr ⟨_, _, [], by simp, hname, rfl, rfl⟩)⟩
    | ptr hc hk hl ht hr =>
      exact ⟨_, _, _, rfl, hc, .inl ⟨_, _, _, rfl, hk, _, _, _, rfl, hl, _, _, _, rfl, ht, _, _, [],
        by simp, hr, rfl, rfl⟩⟩
    | array hc hk hl ht hr =>
      exact ⟨_, _, _, rfl, hc,
        .inr (.inl ⟨_, _, _, rfl, hk, _, _, _, rfl, hl, _, _, _, rfl, ht, _, _,
        [], by simp, hr, rfl, rfl⟩)⟩

theorem starts_wrapper (keyword : TokenType) (node : TypeNode → TypeNode) :
    (wrapper keyword node).Starts (·.1 = keyword) :=
  (starts_token _).bind _

theorem starts_typeBody (isConst : Bool) :
    (typeBody isConst).Starts fun t => t.1 = .kwdPtr ∨ t.1 = .kwdArray ∨ t.1 = .identifier :=
  ((starts_wrapper _ _).mono fun _ => .inl).or
    (((starts_wrapper _ _).mono fun _ h => .inr (.inl h)).or
      ((starts_identifier.bind _).mono fun _ h => .inr (.inr h)))

/-- No type starts with a character. -/
theorem starts_type (c : UInt8) : type.Starts (·.1 ≠ .char c) := by
  intro ts t h
  rw [← type_iff] at h
  obtain ⟨isConst, cs, us, rfl, hc | hc, hbody⟩ := h
  · obtain ⟨t, us', rfl, ht⟩ := (starts_token _).bind _ cs isConst hc
    have hne : t.1 ≠ .char c := by rw [ht]; simp
    exact ⟨t, us' ++ us, rfl, hne⟩
  · obtain ⟨rfl, rfl⟩ := hc
    obtain ⟨t, us', rfl, ht⟩ := starts_typeBody _ us t hbody
    refine ⟨t, us', rfl, ?_⟩
    rcases ht with ht | ht | ht
    all_goals rw [ht]; simp

theorem starts_direction :
    direction.Starts fun t => t.1 = .kwdInout ∨ t.1 = .kwdIn ∨ t.1 = .kwdOut :=
  (((starts_token _).bind _).mono fun _ => .inl).or
    ((((starts_token _).bind _).mono fun _ h => .inr (.inl h)).or
      (((starts_token _).bind _).mono fun _ h => .inr (.inr h)))

theorem starts_function (interface : InterfaceNode) :
    (functionDecl interface).Starts (·.1 = .kwdFunction) :=
  (starts_token _).bind _

theorem starts_struct : structDecl.Starts (·.1 = .kwdStruct) :=
  (starts_token _).bind _

theorem starts_bitfield : bitfieldDecl.Starts (·.1 = .kwdBitfield) :=
  (starts_token _).bind _

theorem starts_enum : enumDecl.Starts (·.1 = .kwdEnum) :=
  (starts_token _).bind _

/-- What comes after annotations starts with the first of them, or by itself. -/
theorem starts_annotations {α : Type} {K : List AnnotationNode → Lang Lexeme α} {p : Lexeme → Prop}
    (hK : ∀ as, (K as).Starts p) (hp : ∀ t : Lexeme, t.1 = op '@' → p t) :
    (annotations >>= K).Starts p := by
  rintro _ a ⟨as, xs, ys, rfl, hx, hy⟩
  have hbody (bs : List AnnotationNode) : Lang.Starts p (do
      let node ← annotation
      return bs ++ [node]) := (starts_annotationNode.bind _).mono hp
  cases hx with
  | done => exact hK _ ys a hy
  | step hround =>
    obtain ⟨t, us, rfl, ht⟩ := hbody _ _ _ hround
    exact ⟨t, _, rfl, ht⟩

/-- No item of a revision starts with a closing brace. -/
theorem starts_revisionItem (r : Revision) : (revisionItem r).Starts (·.1 ≠ op '\x7d') :=
  (starts_ne (starts_annotationNode.bind _) (by decide)).or
    ((starts_ne ((starts_function _).bind _) (by decide)).or
      ((starts_ne (starts_struct.bind _) (by decide)).or
        ((starts_ne (starts_bitfield.bind _) (by decide)).or
          (starts_ne (starts_enum.bind _) (by decide)))))

theorem starts_nextRevision (firstAbirevision : UInt64) (interface : InterfaceNode) :
    (nextRevision firstAbirevision interface).Starts (·.1 = .kwdAbirevision) :=
  ((starts_token _).bind _).bind _

/-- No parameter starts with a closing parenthesis. -/
theorem starts_parameter : parameter.Starts (·.1 ≠ op ')') := by
  refine starts_annotations (fun as => ?_) fun t ht => by rw [ht]; decide
  refine (starts_direction.bind _).mono fun t ht => ?_
  rcases ht with ht | ht | ht
  all_goals rw [ht]; decide

end Syntax

namespace Parser

/-! ### Decisions on the current token -/

theorem type_iff {p : Parser} (type : TokenType) :
    ∀ t us, stream.ahead p = t :: us → (p.currentToken.type = type ↔ t.1 = type) := by
  intro t us h
  rw [type_eq_of_ahead h]

theorem decides_branch {α : Type} {type : TokenType} {x y : Parse α} {L M : Lang Lexeme α}
    {p : Parser}
    (hx : p.currentToken.type = type → DecidesAt x L p) (hL : L.Starts (·.1 = type))
    (hy : p.currentToken.type ≠ type → DecidesAt y M p) (hM : M.Starts (·.1 ≠ type)) :
    DecidesAt (if p.currentToken.type = type then x else y) (L.or M) p :=
  DecidesAt.branch (fun _ _ h => h.type_iff (· = type)) (type_iff type) hx hL hy hM

theorem decides_check {α : Type} {type : TokenType} {x y : Parse α} {L : Lang Lexeme α} {p : Parser}
    (hx : p.currentToken.type = type → DecidesAt x L p) (hL : L.Starts (·.1 = type))
    (hy : ∃ e, y p = .error e ∧ Reported e) :
    DecidesAt (if p.currentToken.type = type then x else y) L p :=
  DecidesAt.check (fun _ _ h => h.type_iff (· = type)) (type_iff type) hx hL hy

theorem decidesAt_currentType {α : Type} {f : TokenType → Parse α} {L : Lang Lexeme α} {p : Parser}
    (h : DecidesAt (f p.currentToken.type) L p) : DecidesAt (currentType >>= f) L p :=
  h.congr rfl fun _ _ => Iff.rfl

/-- A token that has been looked at is taken without `expect`. -/
theorem decides_advance {α : Type} {type : TokenType} {p : Parser} (h : p.currentToken.type = type)
    {k : Unit → Parse α} {L : Lang Lexeme α} (hk : DecidesAt (consume type >>= k) L p) :
    DecidesAt (advance >>= k) L p := by
  refine hk.congr ?_ fun _ _ => Iff.rfl
  rw [consume, bind_assoc, expect_bind h]

theorem decides_string {p : Parser} (hv : p.Valid) (h : p.currentToken.type = .string) :
    DecidesAt (do let text ← currentText; advance; return text) Syntax.string p := by
  have hstring : Decides (do expect .string; let text ← currentText; advance; return text)
      Syntax.string := by
    refine decides_expect (by decide) some (fun _ => by simp) (fun p a ha => ?_)
      (fun _ _ h => absurd h (by simp))
    obtain rfl := Option.some.inj ha
    rfl
  refine (hstring p hv).congr ?_ fun _ _ => Iff.rfl
  rw [expect_bind h]

theorem reported_unexpected {α : Type} {type : TokenType} {p : Parser} :
    ∃ e, (unexpected type : Parse α) p = .error e ∧ Reported e :=
  ⟨_, rfl, _, rfl⟩

/-- A loop over the tokens of one type. -/
theorem decides_whileType {α β : Type} {c : TokenType → Prop} [DecidablePred c]
    {body : β → Parse β} {B : β → Lang Lexeme β} (hbody : ∀ b, Decides (body b) (B b))
    (hB : ∀ b, (B b).Starts fun t => c t.1) {k : β → Parse α} {K : β → Lang Lexeme α}
    [∀ b, (K b).Productive] (hk : ∀ b, Decides (k b) (K b))
    (hK : ∀ b, (K b).Starts fun t => ¬ c t.1) (b : β) :
    Decides (whileType c body b >>= k) (Lang.iterate B b >>= K) :=
  Decides.loop (fun p t us (h : p.ahead = t :: us) => by rw [type_eq_of_ahead h])
    (fun _ _ h => h.type_iff c) hbody hB hk hK (fun p _ => p.length_ahead_lt_rounds) .diverges b

theorem decides_whileSeparated {α β : Type} {close : TokenType} (hclose : op ',' ≠ close)
    {item : β → Parse β} {I : β → Lang Lexeme β} (hitem : ∀ b, Decides (item b) (I b))
    (hI : ∀ b, (I b).Starts (·.1 ≠ close)) {k : β → Parse α} {K : β → Lang Lexeme α}
    [∀ b, (K b).Productive] (hk : ∀ b, Decides (k b) (K b)) (hK : ∀ b, (K b).Starts (·.1 = close))
    (b : β) :
    Decides (whileSeparated close item b >>= k)
      (Lang.sepBy (Syntax.token (op ',')) I b >>= K) :=
  Decides.sepLoop (fun p t us (h : p.ahead = t :: us) => by rw [type_eq_of_ahead h])
    (fun _ _ h => h.type_iff (· ≠ close)) hitem hI (decides_consume (by decide))
    ((Syntax.starts_token _).mono fun t ht => ht ▸ hclose) hk
    (fun b => (hK b).mono fun _ h => not_not.2 h) (fun p _ => p.length_ahead_lt_rounds) .diverges b

/-! ### Annotations -/

theorem decides_argument : Decides parseArgument Syntax.argument := by
  intro p hv
  apply decidesAt_currentType
  refine decides_branch (fun _ => ?_) (Syntax.starts_identifier.bind _)
    (fun _ => ?_) ?_
  · exact (decides_identifier.bind fun _ => .pure _) p hv
  · apply decidesAt_currentType
    refine decides_branch (fun h => ?_) (Syntax.starts_string.bind _)
      (fun _ => ?_) ?_
    · have hstring := (decides_string hv h).bind hv
        (f := fun text => pure (.string text : ExpressionNode)) fun _ p' _ _ => .pure _ p'
      exact hstring.congr (by simp) fun _ _ => Iff.rfl
    · refine decides_check (fun _ => ?_) (Syntax.starts_number.bind _)
        reported_unexpected
      exact (decides_number.bind fun _ => .pure _) p hv
    · exact Syntax.starts_ne (Syntax.starts_number.bind _) (by decide)
  · exact (Syntax.starts_ne (Syntax.starts_string.bind _) (by decide)).or
      (Syntax.starts_ne (Syntax.starts_number.bind _) (by decide))

theorem decides_annotationNode : Decides parseAnnotation Syntax.annotation := by
  refine (decides_consume (by decide)).bind fun _ => decides_identifier.bind fun name =>
    (decides_consume (by decide)).bind fun _ => ?_
  refine decides_whileSeparated (by decide) (fun args => ?_) (fun args => ?_) (fun args => ?_)
    (fun args => (Syntax.starts_token _).bind _) []
  · exact decides_argument.bind fun _ => .pure _
  · refine (Syntax.starts_argument.bind _).mono fun t ht => ?_
    rcases ht with ht | ht | ht
    all_goals rw [ht]; decide
  · exact (decides_consume (by decide)).bind fun _ => .pure _

theorem decides_annotations {α : Type} {k : List AnnotationNode → Parse α}
    {K : List AnnotationNode → Lang Lexeme α} [∀ as, (K as).Productive]
    (hk : ∀ as, Decides (k as) (K as))
    (hK : ∀ as, (K as).Starts (·.1 ≠ op '@')) :
    Decides (parseAnnotations >>= k) (Syntax.annotations >>= K) :=
  decides_whileType (fun _ => decides_annotationNode.bind fun _ => .pure _)
    (fun _ => Syntax.starts_annotationNode.bind _) hk hK []

/-! ### Types -/

/-- The optional `const` and what comes after it, where the rest is parsed from every state that is
not before `p`. -/
theorem decides_const {α : Type} {k : Bool → Parse α} {K : Bool → Lang Lexeme α}
    [∀ b, (K b).Productive] {p : Parser} (hv : p.Valid)
    (hk : ∀ b p', p'.Valid → p'.ahead.length ≤ p.ahead.length → DecidesAt (k b) (K b) p')
    (hK : ∀ b, (K b).Starts (·.1 ≠ .kwdConst)) :
    DecidesAt (parseConst >>= k) (Syntax.constFlag >>= K) p := by
  have hbranch : DecidesAt
      (if p.currentToken.type = .kwdConst then (do advance; k true) else k false)
      ((do Syntax.token .kwdConst; K true : Lang Lexeme α).or (K false)) p := by
    refine decides_branch (fun h => ?_) ((Syntax.starts_token _).bind _)
      (fun _ => hk false p hv (Nat.le_refl _)) (hK false)
    refine decides_advance h ((decides_consume (by decide) p hv).bind hv fun _ p' h' hv' => ?_)
    exact hk true p' hv' ((decides_consume (by decide) p hv).length_le hv h')
  -- the optional keyword is the first of two alternatives
  refine hbranch.congr ?_ fun ts a => ?_
  · by_cases h : p.currentToken.type = .kwdConst
    · rw [if_pos h, parseConst, bind_assoc]
      show ((if p.currentToken.type = .kwdConst then _ else _) >>= k) p = _
      rw [if_pos h, bind_assoc]
      simp
    · rw [if_neg h, parseConst, bind_assoc]
      show ((if p.currentToken.type = .kwdConst then _ else _) >>= k) p = _
      rw [if_neg h]
      simp
  · constructor
    · rintro (⟨_, xs, ys, rfl, hx, hy⟩ | h)
      · exact ⟨true, xs, ys, rfl, .inl ⟨_, xs, [], by simp, hx, rfl, rfl⟩, hy⟩
      · exact ⟨false, [], ts, rfl, .inr ⟨rfl, rfl⟩, h⟩
    · rintro ⟨c, cs, ys, rfl, ⟨_, xs, _, rfl, hx, rfl, rfl⟩ | ⟨rfl, rfl⟩, hy⟩
      · exact .inl ⟨_, xs, ys, by simp, hx, hy⟩
      · exact .inr hy

theorem decides_wrapper {n : Nat} (ih : ∀ p : Parser, p.Valid → p.ahead.length < n →
      DecidesAt (parseTypeFuel n) Syntax.type p) {keyword : TokenType}
    (hkeyword : keyword ≠ .endOfFile ∧ keyword ≠ .number) (node : TypeNode → TypeNode) {p : Parser}
    (hv : p.Valid) (hn : p.ahead.length < n + 1)
    (h : p.currentToken.type = keyword) :
    DecidesAt (do
      advance
      consume (op '<')
      let innerType ← parseTypeFuel n
      consume (op '>')
      return node innerType) (Syntax.wrapper keyword node) p := by
  have hkey := decides_consume hkeyword p hv
  refine decides_advance h (hkey.bind hv fun _ p₁ h₁ hv₁ => ?_)
  have hless : DecidesAt (consume (op '<')) _ p₁ := decides_consume (by decide) p₁ hv₁
  refine hless.bind hv₁ fun _ p₂ h₂ hv₂ => ?_
  have hlt : p₁.ahead.length < p.ahead.length := hkey.length_lt hv (Syntax.starts_token _) h₁
  have hle : p₂.ahead.length ≤ p₁.ahead.length := hless.length_le hv₁ h₂
  refine (ih p₂ hv₂ (by omega)).bind hv₂ fun t p₃ _ hv₃ => ?_
  exact ((decides_consume (by decide)).bind fun _ => .pure _) p₃ hv₃

theorem decides_typeFuel (n : Nat) (p : Parser) (hv : p.Valid) (hn : p.ahead.length < n) :
    DecidesAt (parseTypeFuel n) Syntax.type p := by
  induction n generalizing p with
  | zero => omega
  | succ n ih =>
    refine DecidesAt.congr ?_ rfl Syntax.type_iff
    refine decides_const hv (fun isConst p' hv' hle => ?_) fun isConst => ?_
    · have hn' : p'.ahead.length < n + 1 := by omega
      apply decidesAt_currentType
      refine decides_branch (decides_wrapper ih (by decide) _ hv' hn')
        (Syntax.starts_wrapper _ _) (fun _ => ?_) ?_
      · refine decides_branch (decides_wrapper ih (by decide) _ hv' hn')
          (Syntax.starts_wrapper _ _) (fun _ => ?_) ?_
        · exact (decides_identifier.bind fun _ => .pure _) p' hv'
        · exact Syntax.starts_ne (Syntax.starts_identifier.bind _) (by decide)
      · exact (Syntax.starts_ne (Syntax.starts_wrapper _ _) (by decide)).or
          (Syntax.starts_ne (Syntax.starts_identifier.bind _) (by decide))
    · refine (Syntax.starts_typeBody isConst).mono fun t ht => ?_
      rcases ht with ht | ht | ht
      all_goals rw [ht]; decide

theorem decides_type : Decides parseType Syntax.type :=
  fun p hv => (decides_typeFuel p.rounds p hv p.length_ahead_lt_rounds).congr rfl fun _ _ => Iff.rfl

/-! ### Declarations -/

theorem decides_direction : Decides parseDirection Syntax.direction := by
  intro p hv
  -- every keyword is looked at, taken and turned into its direction
  have htake (keyword : TokenType) (hkeyword : keyword ≠ .endOfFile ∧ keyword ≠ .number)
    (d : Direction)
      (h : p.currentToken.type = keyword) :
      DecidesAt (do advance; return d) (do Syntax.token keyword; return d) p :=
    decides_advance h (((decides_consume hkeyword).bind fun _ => .pure d) p hv)
  have hstarts (keyword : TokenType) (d : Direction) :
      (do Syntax.token keyword; return d : Lang Lexeme Direction).Starts (·.1 = keyword) :=
    (Syntax.starts_token _).bind _
  apply decidesAt_currentType
  refine decides_branch (htake _ (by decide) _) (hstarts _ _) (fun _ => ?_) ?_
  · refine decides_branch (htake _ (by decide) _) (hstarts _ _) (fun _ => ?_) ?_
    · exact decides_check (htake _ (by decide) _) (hstarts _ _) reported_unexpected
    · exact Syntax.starts_ne (hstarts _ _) (by decide)
  · exact (Syntax.starts_ne (hstarts _ _) (by decide)).or
      (Syntax.starts_ne (hstarts _ _) (by decide))

theorem decides_parameter : Decides parseParameter Syntax.parameter := by
  refine decides_annotations (fun annotations => ?_) fun annotations => ?_
  · exact decides_direction.bind fun _ =>
      decides_type.bind fun _ => decides_identifier.bind fun _ =>
      .pure _
  · exact (Syntax.starts_direction.bind _).mono fun t ht => by
      rcases ht with ht | ht | ht
      all_goals rw [ht]; decide

theorem decides_struct : Decides parseStruct Syntax.structDecl := by
  refine (decides_consume (by decide)).bind fun _ => decides_identifier.bind fun name =>
    (decides_consume (by decide)).bind fun _ => ?_
  refine decides_whileType (fun fields => ?_) (fun fields => ?_) (fun fields => ?_)
    (fun fields => ?_) []
  · exact decides_type.bind fun _ => decides_identifier.bind fun _ =>
      (decides_consume (by decide)).bind fun _ => .pure _
  · exact (Syntax.starts_type _).bind _
  · exact (decides_consume (by decide)).bind fun _ => (decides_consume (by decide)).bind fun _ =>
      .pure _
  · exact ((Syntax.starts_token _).bind _).mono fun t ht => not_not.2 ht

set_option synthInstance.maxSize 256 in
theorem decides_bitfield : Decides parseBitfield Syntax.bitfieldDecl := by
  refine (decides_consume (by decide)).bind fun _ => (decides_consume (by decide)).bind fun _ =>
    decides_type.bind fun baseType => (decides_consume (by decide)).bind fun _ =>
    decides_identifier.bind fun name => (decides_consume (by decide)).bind fun _ => ?_
  refine decides_whileType (fun fields => ?_) (fun fields => ?_) (fun fields => ?_)
    (fun fields => ?_) []
  · exact decides_identifier.bind fun _ => (decides_consume (by decide)).bind fun _ =>
      decides_number.bind fun _ => (decides_consume (by decide)).bind fun _ => .pure _
  · exact Syntax.starts_ne (Syntax.starts_identifier.bind _) (by decide)
  · exact (decides_consume (by decide)).bind fun _ => (decides_consume (by decide)).bind fun _ =>
      .pure _
  · exact ((Syntax.starts_token _).bind _).mono fun t ht => not_not.2 ht

set_option synthInstance.maxSize 256 in
theorem decides_enum : Decides parseEnum Syntax.enumDecl := by
  refine (decides_consume (by decide)).bind fun _ => (decides_consume (by decide)).bind fun _ =>
    decides_type.bind fun baseType => (decides_consume (by decide)).bind fun _ =>
    decides_identifier.bind fun name => (decides_consume (by decide)).bind fun _ => ?_
  refine decides_whileSeparated (by decide) (fun members => ?_) (fun members => ?_)
    (fun members => ?_) (fun members => (Syntax.starts_token _).bind _) []
  · refine decides_annotations (fun annotations => ?_) fun annotations => ?_
    · exact decides_identifier.bind fun _ => (decides_consume (by decide)).bind fun _ =>
        decides_number.bind fun _ => .pure _
    · exact Syntax.starts_ne (Syntax.starts_identifier.bind _) (by decide)
  · refine Syntax.starts_annotations (fun as => ?_) fun t ht => by rw [ht]; decide
    exact Syntax.starts_ne (Syntax.starts_identifier.bind _) (by decide)
  · exact (decides_consume (by decide)).bind fun _ => (decides_consume (by decide)).bind fun _ =>
      .pure _

theorem decides_function (interface : InterfaceNode) :
    Decides (parseFunction interface) (Syntax.functionDecl interface) := by
  refine (decides_consume (by decide)).bind fun _ => decides_identifier.bind fun name =>
    (decides_consume (by decide)).bind fun _ => ?_
  refine decides_whileSeparated (by decide) (fun parameters => ?_) (fun parameters => ?_)
    (fun parameters => ?_) (fun parameters => (Syntax.starts_token _).bind _) []
  · exact decides_parameter.bind fun _ => .pure _
  · exact Syntax.starts_parameter.bind _
  · exact (decides_consume (by decide)).bind fun _ => (decides_consume (by decide)).bind fun _ =>
      .pure _

/-! ### Revisions -/

theorem decides_revisionItem (r : Revision) :
    Decides (parseRevisionItem r) (Syntax.revisionItem r) := by
  intro p hv
  apply decidesAt_currentType
  -- the branches test the current token in the order of the source
  refine decides_branch (fun _ => ?_) (Syntax.starts_annotationNode.bind _)
    (fun _ => ?_) ?_
  · exact (decides_annotationNode.bind fun _ => .pure _) p hv
  · refine decides_branch (fun _ => ?_) ((Syntax.starts_function _).bind _)
      (fun _ => ?_) ?_
    · exact ((decides_function _).bind fun _ => .pure _) p hv
    · refine decides_branch (fun _ => ?_) (Syntax.starts_struct.bind _)
        (fun _ => ?_) ?_
      · exact (decides_struct.bind fun _ => .pure _) p hv
      · refine decides_branch (fun _ => ?_) (Syntax.starts_bitfield.bind _)
          (fun _ => ?_) ?_
        · exact (decides_bitfield.bind fun _ => .pure _) p hv
        · refine decides_check (fun _ => ?_) (Syntax.starts_enum.bind _)
            reported_unexpected
          exact (decides_enum.bind fun _ => .pure _) p hv
        · exact Syntax.starts_ne (Syntax.starts_enum.bind _) (by decide)
      · exact (Syntax.starts_ne (Syntax.starts_bitfield.bind _) (by decide)).or
          (Syntax.starts_ne (Syntax.starts_enum.bind _) (by decide))
    · exact (Syntax.starts_ne (Syntax.starts_struct.bind _) (by decide)).or
        ((Syntax.starts_ne (Syntax.starts_bitfield.bind _) (by decide)).or
          (Syntax.starts_ne (Syntax.starts_enum.bind _) (by decide)))
  · exact (Syntax.starts_ne ((Syntax.starts_function _).bind _) (by decide)).or
      ((Syntax.starts_ne (Syntax.starts_struct.bind _) (by decide)).or
        ((Syntax.starts_ne (Syntax.starts_bitfield.bind _) (by decide)).or
          (Syntax.starts_ne (Syntax.starts_enum.bind _) (by decide))))

theorem decides_abiversion (interface : InterfaceNode) :
    Decides (parseAbiversion interface) (Syntax.abirevision interface) := by
  refine (decides_consume (by decide)).bind fun _ => decides_number.bind fun version =>
    (decides_consume (by decide)).bind fun _ => ?_
  refine decides_whileType decides_revisionItem Syntax.starts_revisionItem (fun r => ?_)
    (fun r => ?_)
    _
  · exact (decides_consume (by decide)).bind fun _ => .pure _
  · exact ((Syntax.starts_token _).bind _).mono fun t ht => not_not.2 ht

/-- `append_abiversion_or_throw` takes the revision that has the next number. -/
theorem parses_appendAbiversion (firstAbirevision : UInt64) (interface : InterfaceNode)
    (abiversion : AbiversionNode) :
    Parses (fromExcept (appendAbiversionOrThrow firstAbirevision interface abiversion))
      (fun ts result => ts = [] ∧
        abiversion.version = firstAbirevision + UInt64.ofNat interface.abiversions.length ∧
        result = { interface with abiversions := interface.abiversions ++ [abiversion] }) := by
  intro p _
  by_cases h : abiversion.version = firstAbirevision + UInt64.ofNat interface.abiversions.length
  · have hok : appendAbiversionOrThrow firstAbirevision interface abiversion
        = .ok { interface with abiversions := interface.abiversions ++ [abiversion] } :=
      if_neg (not_not.2 h)
    rw [hok]
    refine (RecognizesAt.pure _ p).congr rfl fun ts result => ?_
    exact ⟨fun ⟨hts, hr⟩ => ⟨hts, h, hr⟩, fun ⟨hts, _, hr⟩ => ⟨hts, hr⟩⟩
  · obtain ⟨e, he⟩ : ∃ what, appendAbiversionOrThrow firstAbirevision interface abiversion
        = .error (.runtimeError what) := ⟨_, if_pos h⟩
    have hreported : Reported (.runtimeError e) := ⟨e, rfl⟩
    rw [he]
    refine (Recognizes.fail hreported p ‹_›).congr rfl fun ts result => ?_
    exact ⟨False.elim, fun ⟨_, hversion, _⟩ => h hversion⟩

theorem parses_interfaceItem (firstAbirevision : UInt64) (interface : InterfaceNode) :
    Parses (parseInterfaceItem firstAbirevision interface)
      (Syntax.nextRevision firstAbirevision interface) := by
  intro p hv
  refine RecognizesAt.congr (x := if p.currentToken.type = .kwdAbirevision then _ else _) ?_ rfl
    fun _ _ => Iff.rfl
  refine RecognizesAt.check (type_iff _) (fun _ => ?_) (Syntax.starts_nextRevision _ _)
    reported_unexpected
  exact ((decides_abiversion interface).recognizes.bind fun x =>
    parses_appendAbiversion _ x.2 x.1) p hv

/-! ### Interfaces -/

theorem decides_interfaceHeader (firstFuncid : UInt32) :
    Decides (parseInterfaceHeader firstFuncid) (Syntax.interfaceHeader firstFuncid) := by
  refine decides_annotations (fun annotations => ?_) fun annotations => ?_
  · exact (decides_consume (by decide)).bind fun _ => decides_identifier.bind fun _ =>
      (decides_consume (by decide)).bind fun _ => .pure _
  · exact Syntax.starts_ne ((Syntax.starts_token _).bind _) (by decide)

/-- **`parse` recognizes whole interfaces** once the first token has been read. -/
theorem parses_interface (firstAbirevision : UInt64) (firstFuncid : UInt32) :
    Parses (parseInterface firstAbirevision firstFuncid)
      (Syntax.interfaceDecl firstAbirevision firstFuncid) := by
  refine (decides_interfaceHeader firstFuncid).recognizes.bind fun header => ?_
  refine Recognizes.loop (fun p t us (h : p.ahead = t :: us) => by rw [type_eq_of_ahead h])
    (parses_interfaceItem firstAbirevision) (fun interface => ?_) (fun interface => ?_)
    (fun interface => ?_) (fun p _ => p.length_ahead_lt_rounds) .diverges header
  · exact Syntax.starts_ne (Syntax.starts_nextRevision _ _) (by decide)
  · exact ((decides_consume (by decide)).bind fun _ => .pure _).recognizes
  · exact ((Syntax.starts_token _).bind _).mono fun t ht => not_not.2 ht

end Parser

end Sidlc
