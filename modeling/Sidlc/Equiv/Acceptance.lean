import Sidlc.Equiv.Parser
import Sidlc.Equiv.Printed

/-!
# What the parser accepts

`parse` returns an interface exactly when the text begins with one (`parse_eq_some_iff`), so it
accepts exactly the grammar where nothing follows the interface (`parse_acceptsExactly_iff`). It
does not look behind the closing brace.
-/

namespace Sidlc

open Grammar Decimal StateExcept

namespace Parser

variable {source : Bytes} {firstAbirevision : UInt64} {firstFuncid : UInt32}

/-- The state after the first token of a source. -/
def start (source : Bytes) : Parser :=
  next { lexer := { source } }

theorem ahead_start (source : Bytes) : (start source).ahead = lexemes source :=
  ahead_next_eq_lexemes _

theorem valid_start (source : Bytes) : (start source).Valid :=
  valid_next _

theorem parse_eq (source : Bytes) (firstAbirevision : UInt64) (firstFuncid : UInt32) :
    parse source firstAbirevision firstFuncid =
      match parseInterface firstAbirevision firstFuncid (start source) with
      | .ok (interface, _) => .ok (some interface)
      | .error (.runtimeError _) => .ok none
      | .error e => .error e :=
  rfl

/-- **`parse` returns an interface exactly when the text begins with one.** -/
theorem parse_eq_some_iff {I : InterfaceNode} :
    parse source firstAbirevision firstFuncid = .ok (some I) ↔
      ∃ ts, ts <+: lexemes source ∧ Syntax.interfaceDecl firstAbirevision firstFuncid ts I := by
  have hrec := parses_interface firstAbirevision firstFuncid (start source) (valid_start source)
  have hahead : stream.ahead (start source) = lexemes source := ahead_start source
  rw [parse_eq]
  constructor
  · intro h
    split at h
    · next J p' hparse =>
      obtain rfl : J = I := by simpa using h
      obtain ⟨ts, hts, hI, -⟩ := (hrec.ok_iff ..).1 hparse
      exact ⟨ts, hahead ▸ hts, hI⟩
    · simp at h
    · simp at h
  · rintro ⟨ts, hts, hI⟩
    rw [(hrec.ok_iff ..).2 ⟨ts, hahead ▸ hts, hI, rfl⟩]

/-- On decimal numbers no exception leaves `parse`. -/
theorem parse_ne_error (hdec : ∀ t ∈ lexemes source, DecimalLexeme t) :
    ∃ result, parse source firstAbirevision firstFuncid = .ok result := by
  have hrec := parses_interface firstAbirevision firstFuncid (start source) (valid_start source)
  have hahead : stream.ahead (start source) = lexemes source := ahead_start source
  rw [parse_eq]
  cases h : parseInterface firstAbirevision firstFuncid (start source) with
  | ok r => exact ⟨_, rfl⟩
  | error e =>
    obtain ⟨what, rfl⟩ := hrec.benign_of_error e (hahead ▸ hdec) h
    exact ⟨none, rfl⟩

/-- A text begins with at most one interface. -/
theorem interfaceDecl_unique {ts us : List Lexeme} {I J : InterfaceNode}
    (hts : ts <+: lexemes source) (hI : Syntax.interfaceDecl firstAbirevision firstFuncid ts I)
    (hus : us <+: lexemes source) (hJ : Syntax.interfaceDecl firstAbirevision firstFuncid us J) :
    I = J ∧ ts = us := by
  have hrec := parses_interface firstAbirevision firstFuncid (start source) (valid_start source)
  have hahead : stream.ahead (start source) = lexemes source := ahead_start source
  obtain ⟨ts', hts'⟩ := hts
  obtain ⟨us', hus'⟩ := hus
  exact hrec.unique (valid_start source) (hahead.trans hts'.symm) hI (hahead.trans hus'.symm) hJ

/-! ### Acceptance -/

/-- `parse` returns what the whole text denotes, and rejects the text if that is nothing. -/
def AcceptsExactly (source : Bytes) (firstAbirevision : UInt64) (firstFuncid : UInt32) : Prop :=
  (∀ I, parse source firstAbirevision firstFuncid = .ok (some I) ↔
    Syntax.interfaceDecl firstAbirevision firstFuncid (lexemes source) I) ∧
  ((∀ I, ¬ Syntax.interfaceDecl firstAbirevision firstFuncid (lexemes source) I) →
    parse source firstAbirevision firstFuncid = .ok none)

/-- **The parser accepts exactly the grammar** on the texts in which nothing follows an
interface. -/
theorem parse_acceptsExactly_iff (source : Bytes) (firstAbirevision : UInt64)
    (firstFuncid : UInt32) (hdec : ∀ t ∈ lexemes source, DecimalLexeme t) :
    AcceptsExactly source firstAbirevision firstFuncid ↔
      ∀ ts I, ts <+: lexemes source →
        Syntax.interfaceDecl firstAbirevision firstFuncid ts I → ts = lexemes source := by
  constructor
  · intro h ts I hts hI
    have hparse : parse source firstAbirevision firstFuncid = .ok (some I) :=
      parse_eq_some_iff.2 ⟨ts, hts, hI⟩
    exact (interfaceDecl_unique hts hI (List.prefix_refl _) ((h.1 I).1 hparse)).2
  · intro hwhole
    have hiff (I : InterfaceNode) : parse source firstAbirevision firstFuncid = .ok (some I) ↔
        Syntax.interfaceDecl firstAbirevision firstFuncid (lexemes source) I := by
      rw [parse_eq_some_iff]
      constructor
      · rintro ⟨ts, hts, hI⟩
        rwa [hwhole ts I hts hI] at hI
      · exact fun hI => ⟨_, List.prefix_refl _, hI⟩
    refine ⟨hiff, fun hnone => ?_⟩
    -- decimal numbers raise no error, so the parser answers
    obtain ⟨_ | I, hresult⟩ := parse_ne_error hdec
    · exact hresult
    · exact absurd ((hiff I).1 hresult) (hnone I)

/-! ### A source with a trailing token -/

/-- An interface without revisions. -/
def emptySource : Bytes :=
  ascii "interface a \x7b\x7d"

def emptyLexemes : List Lexeme :=
  [(.kwdInterface, ascii "interface"), (.identifier, ascii "a"), (op '\x7b', ascii "\x7b"),
    (op '\x7d', ascii "\x7d")]

theorem lexemes_emptySource (r : Bytes) :
    lexemes (emptySource ++ r) = emptyLexemes ++ lexemes r := by
  show lexemes (ascii "interface" ++ (chr ' ' :: (ascii "a" ++ (chr ' ' :: chr '\x7b' ::
    chr '\x7d' :: r)))) = _
  have hblank (s : Bytes) : EndsWord (chr ' ' :: s) := by
    rintro c ⟨⟩
    decide
  rw [lexemes_word (by decide +kernel) (hblank _), lexemes_blank (by decide),
    lexemes_word (by decide +kernel) (hblank _), lexemes_blank (by decide), lexemes_operator
    (by decide),
    lexemes_operator (by decide)]
  rfl

theorem interfaceDecl_emptyLexemes :
    Syntax.interfaceDecl 0 0 emptyLexemes { name := ascii "a" } := by
  have hheader : Syntax.interfaceHeader 0 (emptyLexemes.take 3) { name := ascii "a" } :=
    ⟨[], [], _, rfl, .done _, (), _, _, rfl, ⟨_, rfl, rfl⟩, _, _, _, rfl, ⟨_, rfl, rfl⟩, (), _, [],
      rfl, ⟨_, rfl, rfl⟩, rfl, rfl⟩
  exact ⟨_, _, _, rfl, hheader, _, [], _, rfl, .done _, (), _, [], rfl, ⟨_, rfl, rfl⟩, rfl, rfl⟩

/-- The trailing `a` goes unnoticed. -/
theorem not_acceptsExactly_trailing : ¬ AcceptsExactly (emptySource ++ ascii " a") 0 0 := by
  intro h
  have hpre : emptyLexemes <+: lexemes (emptySource ++ ascii " a") :=
    ⟨_, (lexemes_emptySource _).symm⟩
  have hparse : parse (emptySource ++ ascii " a") 0 0 = .ok (some { name := ascii "a" }) :=
    parse_eq_some_iff.2 ⟨_, hpre, interfaceDecl_emptyLexemes⟩
  have hwhole := (interfaceDecl_unique hpre interfaceDecl_emptyLexemes (List.prefix_refl _)
    ((h.1 _).1 hparse)).2
  have htrailing : lexemes (ascii " a") = [(.identifier, ascii "a")] := by
    show lexemes (chr ' ' :: (ascii "a" ++ [])) = _
    rw [lexemes_blank (by decide), lexemes_word (by decide +kernel) (by rintro c ⟨⟩), lexemes_nil]
    rfl
  rw [lexemes_emptySource, htrailing] at hwhole
  exact absurd (congrArg List.length hwhole) (by decide)

/-- Where the parser reaches the end of the text, the text is an interface. -/
theorem eq_lexemes_of_atEnd {I : InterfaceNode} {p' : Parser}
    (hparse : parseInterface firstAbirevision firstFuncid (start source) = .ok (I, p'))
    (hend : p'.ahead = []) {ts : List Lexeme} {J : InterfaceNode} (hts : ts <+: lexemes source)
    (hJ : Syntax.interfaceDecl firstAbirevision firstFuncid ts J) : ts = lexemes source := by
  have hrec := parses_interface firstAbirevision firstFuncid (start source) (valid_start source)
  obtain ⟨us, hI, hahead, -, -⟩ := hrec.of_ok (valid_start source) hparse
  have hus : us = lexemes source := by
    have hrest : stream.ahead p' = [] := hend
    rw [hrest, List.append_nil] at hahead
    exact hahead.symm.trans (ahead_start source)
  exact (interfaceDecl_unique hts hJ (hus ▸ List.prefix_refl _) hI).2.trans hus

/-- A revision that goes on from another, with numbers and with declarations. -/
def nextSource : Bytes :=
  ascii "@a(1) interface a \x7b abirevision 1 \x7b enum<u8> e \x7b m = 5 \x7d; " ++
    ascii "function f(in e x); \x7d \x7d"

/-- A source behind which nothing follows, for a first revision other than zero. -/
theorem acceptsExactly_nextSource : AcceptsExactly nextSource 1 2 := by
  have hdec : ∀ t ∈ lexemes nextSource, DecimalLexeme t := by
    unfold DecimalLexeme IsDecimal
    decide +kernel
  have hend : (match parseInterface 1 2 (start nextSource) with
      | .ok (_, p') => p'.ahead.isEmpty
      | .error _ => false) = true := by
    decide +kernel
  split at hend
  next I p' hparse =>
    exact (parse_acceptsExactly_iff nextSource 1 2 hdec).2
      fun ts I hts hI =>
        eq_lexemes_of_atEnd hparse (List.isEmpty_iff.1 hend) hts hI
  next => cases hend

end Parser

end Sidlc
