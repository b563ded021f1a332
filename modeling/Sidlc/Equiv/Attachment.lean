import Sidlc.Equiv.SyntaxTrees

/-!
# Annotations that get lost

In a syntax tree every annotation belongs to the interface, declaration, enumerator or parameter it
stands before, except those that are left over at the end of a block, which the parser drops. They
are there exactly when a closing parenthesis stands directly before a closing brace
(`attached_iff`).
-/

namespace Sidlc

open Grammar Sidlc.Parser

/-- No annotation ends directly before the end of a block. -/
def Apart (t u : Lexeme) : Prop :=
  ¬ (t.1 = op ')' ∧ u.1 = op '\x7d')

namespace Syntax

/-! ### Closing parentheses in sentences -/

def NotClosed (t : Lexeme) : Prop :=
  t.1 ≠ op ')'

def AnyLexeme (_ : Lexeme) : Prop :=
  True

/-- The sentences can stand behind anything, and no closing parenthesis is the last lexeme. -/
abbrev Separate {α : Type} (L : Lang Lexeme α) : Prop :=
  L.Follows Apart AnyLexeme NotClosed

/-- The same for sentences that can be empty, or that begin with a closing brace. -/
abbrev Continues {α : Type} (L : Lang Lexeme α) : Prop :=
  L.Follows Apart NotClosed NotClosed

theorem Separate.weaken {α : Type} {L : Lang Lexeme α} (h : Separate L) : Continues L :=
  h.mono (fun _ _ => trivial) fun _ => id

theorem Separate.loosen {α : Type} {L : Lang Lexeme α} (h : Separate L) :
    L.Follows Apart AnyLexeme AnyLexeme :=
  h.mono (fun _ => id) fun _ _ => trivial

/-- A lexeme of a type that is neither of the two. -/
theorem separate_terminal {α : Type} (type : TokenType) {value : Lexeme → Option α}
    (htype : type ≠ op ')' ∧ type ≠ op '\x7d')
    (h : ∀ t : Lexeme, t.1 ≠ type → value t = none) : Separate (.terminal value) := by
  refine Lang.follows_terminal fun t u a _ hu => ?_
  have hu' : u.1 = type := by
    by_contra hne
    exact absurd ((h u hne).symm.trans hu) (by simp)
  constructor
  · rintro ⟨-, hbrace⟩
    exact htype.2 (hu'.symm.trans hbrace)
  · exact fun hclose => htype.1 (hu'.symm.trans hclose)

theorem separate_token {type : TokenType} (h : type ≠ op ')' ∧ type ≠ op '\x7d') :
    Separate (token type) :=
  separate_terminal type h fun _ h => if_neg h

theorem separate_identifier : Separate identifier :=
  separate_terminal .identifier (by decide) fun _ h => if_neg h

theorem separate_string : Separate string :=
  separate_terminal .string (by decide) fun _ h => if_neg h

theorem separate_number : Separate number :=
  separate_terminal .number (by decide) fun _ h => if_neg h

theorem follows_close : (token (op ')')).Follows Apart NotClosed AnyLexeme :=
  Lang.follows_terminal fun _ _ _ ht _ => ⟨fun h => ht h.1, trivial⟩

theorem continues_brace : Continues (token (op '\x7d')) := by
  refine Lang.follows_terminal fun t u a ht hu => ⟨fun h => ht h.1, fun hclose => ?_⟩
  have hu' : u.1 = op '\x7d' := token_singleton_iff.1 ⟨u, rfl, hu⟩
  exact absurd (hu'.symm.trans hclose) (by decide)

theorem separate_argument : Separate argument := by
  refine .or ?_ (.or ?_ ?_)
  · exact separate_identifier.bind fun _ => .pure _
  · exact separate_string.bind fun _ => .pure _
  · exact separate_number.bind fun _ => .pure _

theorem follows_annotation : annotation.Follows Apart AnyLexeme AnyLexeme := by
  refine (separate_token (by decide)).bind fun _ => separate_identifier.weaken.bind fun _ =>
    (separate_token (by decide)).weaken.bind fun _ => ?_
  refine (Lang.Follows.sepBy (separate_token (by decide)).weaken (fun args => ?_) []).bind fun _ =>
    follows_close.bind fun _ => .pure _
  exact separate_argument.weaken.bind fun _ => .pure _

theorem follows_annotations : annotations.Follows Apart AnyLexeme AnyLexeme :=
  .iterate (fun _ => follows_annotation.bind fun _ => .pure _) []

theorem follows_constFlag : constFlag.Follows Apart AnyLexeme AnyLexeme := by
  refine .or ?_ (.pure false)
  exact (separate_token (by decide)).loosen.bind fun _ => .pure true

theorem separate_type : Separate type := by
  intro ts t h
  induction h with
  | named hc hname => exact (follows_constFlag _ _ hc).append (separate_identifier _ _ hname)
  | ptr hc hk hl _ hr ih | array hc hk hl _ hr ih =>
    exact (follows_constFlag _ _ hc).append ((separate_token (by decide) _ _ hk).append
      (((separate_token (by decide)).weaken _ _ hl).append
        ((ih.mono (fun _ _ => trivial) fun _ => id).append
          ((separate_token (by decide)).weaken _ _ hr))))

theorem separate_direction : Separate direction := by
  refine .or ?_ (.or ?_ ?_)
  all_goals exact (separate_token (by decide)).bind fun _ => .pure _

theorem separate_parameter : Separate parameter :=
  follows_annotations.bind fun _ => separate_direction.bind fun _ =>
    separate_type.weaken.bind fun _ => separate_identifier.weaken.bind fun _ => .pure _

theorem separate_structDecl : Separate structDecl := by
  refine (separate_token (by decide)).bind fun _ => separate_identifier.weaken.bind fun _ =>
    (separate_token (by decide)).weaken.bind fun _ => ?_
  refine (Lang.Follows.iterate (fun fields => ?_) []).bind fun _ => continues_brace.bind fun _ =>
    (separate_token (by decide)).weaken.bind fun _ => .pure _
  exact separate_type.weaken.bind fun _ => separate_identifier.weaken.bind fun _ =>
    (separate_token (by decide)).weaken.bind fun _ => .pure _

theorem separate_bitfieldDecl : Separate bitfieldDecl := by
  refine (separate_token (by decide)).bind fun _ =>
    (separate_token (by decide)).weaken.bind fun _ =>
    separate_type.weaken.bind fun _ => (separate_token (by decide)).weaken.bind fun _ =>
    separate_identifier.weaken.bind fun _ => (separate_token (by decide)).weaken.bind fun _ => ?_
  refine (Lang.Follows.iterate (fun fields => ?_) []).bind fun _ => continues_brace.bind fun _ =>
    (separate_token (by decide)).weaken.bind fun _ => .pure _
  exact separate_identifier.weaken.bind fun _ => (separate_token (by decide)).weaken.bind fun _ =>
    separate_number.weaken.bind fun _ => (separate_token (by decide)).weaken.bind fun _ => .pure _

theorem separate_enumDecl : Separate enumDecl := by
  refine (separate_token (by decide)).bind fun _ =>
    (separate_token (by decide)).weaken.bind fun _ =>
    separate_type.weaken.bind fun _ => (separate_token (by decide)).weaken.bind fun _ =>
    separate_identifier.weaken.bind fun _ => (separate_token (by decide)).weaken.bind fun _ => ?_
  refine (Lang.Follows.sepBy (separate_token (by decide)).weaken
    (fun members => ?_) []).bind fun _ =>
    continues_brace.bind fun _ => (separate_token (by decide)).weaken.bind fun _ => .pure _
  refine Separate.weaken (follows_annotations.bind fun _ => separate_identifier.bind fun _ => ?_)
  exact (separate_token (by decide)).weaken.bind fun _ => separate_number.weaken.bind fun _ =>
    .pure _

theorem separate_functionDecl (interface : InterfaceNode) : Separate (functionDecl interface) := by
  refine (separate_token (by decide)).bind fun _ => separate_identifier.weaken.bind fun _ =>
    (separate_token (by decide)).weaken.bind fun _ => ?_
  refine (Lang.Follows.sepBy (separate_token (by decide)).weaken (fun parameters => ?_) []).bind
    fun _ => follows_close.bind fun _ => (separate_token (by decide)).bind fun _ => .pure _
  exact separate_parameter.weaken.bind fun _ => .pure _

theorem separate_declaration : Separate declaration := by
  refine follows_annotations.bind fun as => Lang.Follows.bind (q := NotClosed) ?_ fun d => .pure _
  refine .or ?_ (.or ?_ (.or ?_ ?_))
  · exact (separate_functionDecl {}).bind fun _ => .pure _
  · exact separate_structDecl.bind fun _ => .pure _
  · exact separate_bitfieldDecl.bind fun _ => .pure _
  · exact separate_enumDecl.bind fun _ => .pure _

/-! ### Annotations left over -/

/-- Every annotation belongs to a node. -/
def Tree.Complete (t : Tree) : Prop :=
  ∀ b ∈ t.blocks, b.leftover = []

/-- Without annotations left over, a block can stand behind another one. -/
theorem passes_block {ts : List Lexeme} {b : Block} (h : block ts b) (hb : b.leftover = []) :
    Lang.Passes Apart NotClosed ts NotClosed := by
  obtain ⟨u, xs, us, vs, zs, rfl, hxs, hus, hvs, hzs⟩ := block_iff_parts.1 h
  obtain ⟨ps, -, rfl, hmap⟩ := Lang.iterate_collect_iff.1 hvs
  have hnone : ps = [] := List.map_eq_nil_iff.1 (hmap.symm.trans hb)
  rw [hnone, List.flatMap_nil, List.append_nil]
  have hheader : Continues revisionHeader :=
    (separate_token (by decide)).weaken.bind fun _ => separate_number.weaken.bind fun _ =>
      (separate_token (by decide)).weaken.bind fun _ => .pure _
  have hds : Continues declarations :=
    .iterate (fun _ => separate_declaration.weaken.bind fun _ => .pure _) []
  exact (hheader _ _ hxs).append ((hds _ _ hus).append (continues_brace _ _ hzs))

/-- A complete tree has no closing parenthesis directly before a closing brace. -/
theorem isChain_of_complete {ts : List Lexeme} {t : Tree} (h : tree ts t) (ht : t.Complete) :
    ts.IsChain Apart := by
  obtain ⟨u, xs, ys, zs, rfl, hxs, hys, hzs⟩ := tree_iff_parts.1 h
  obtain ⟨ps, hps, rfl, hmap⟩ := Lang.iterate_collect_iff.1 hys
  have hheading : Lang.Follows Apart AnyLexeme heading NotClosed :=
    follows_annotations.bind fun _ => (separate_token (by decide)).bind fun _ =>
      separate_identifier.weaken.bind fun _ =>
        (separate_token (by decide)).weaken.bind fun _ => .pure _
  have hblocks : Lang.Passes Apart NotClosed (ps.flatMap Prod.fst) NotClosed := by
    -- no block ends in an annotation, which would stick to the brace behind it
    have hleftover : ∀ p ∈ ps, p.2.leftover = [] := by
      intro p hp
      apply ht p.2
      rw [hmap]
      exact List.mem_map_of_mem hp
    clear h hys hmap
    induction ps with
    | nil => exact Lang.passes_nil
    | cons p ps ih =>
      rw [List.forall_mem_cons] at hps hleftover
      exact (passes_block hps.1 hleftover.1).append (ih hps.2 hleftover.2)
  exact Lang.Passes.isChain (t := (.unknown, []))
    ((hheading _ _ hxs).append (hblocks.append (continues_brace _ _ hzs))) trivial

/-- An annotation ends in a closing parenthesis. -/
theorem exists_close_of_annotation {ts : List Lexeme} {node : AnnotationNode}
    (h : annotation ts node) : ∃ xs close, ts = xs ++ [close] ∧ close.1 = op ')' := by
  obtain ⟨_, ys₁, _, rfl, -, _, ys₂, _, rfl, -, _, ys₃, _, rfl, -, _, ys₄, _, rfl, -, _, ys₅, _,
    rfl, hclose, rfl, -⟩ := h
  obtain ⟨close, rfl, htype⟩ := token_iff.1 hclose
  exact ⟨ys₁ ++ (ys₂ ++ (ys₃ ++ ys₄)), close, by simp, htype⟩

/-- Annotations left over end directly before the closing brace of their block. -/
theorem leftover_of_isChain {ts : List Lexeme} {b : Block} (h : block ts b)
    (hts : ts.IsChain Apart) : b.leftover = [] := by
  obtain ⟨_, xs, us, _, _, rfl, -, -, hvs, hzs⟩ := block_iff_parts.1 h
  obtain ⟨brace, rfl, hbrace⟩ := token_iff.1 hzs
  obtain ⟨ps, hps, rfl, hmap⟩ := Lang.iterate_collect_iff.1 hvs
  rw [hmap, List.nil_append]
  cases ps using List.reverseRecOn with
  | nil => rfl
  | append_singleton ps p =>
    exfalso
    -- the last annotation ends in a parenthesis, and the brace comes next
    obtain ⟨ys, close, hp, hclose⟩ := exists_close_of_annotation (hps p (by simp))
    have hts' : xs ++ ((us ++ (ps ++ [p]).flatMap Prod.fst) ++ [brace])
        = (xs ++ (us ++ (ps.flatMap Prod.fst ++ ys))) ++ close :: brace :: [] := by
      simp [hp]
    exact List.isChain_iff_forall_rel_of_append_cons_cons.1 hts hts' ⟨hclose, hbrace⟩

theorem complete_of_isChain {ts : List Lexeme} {t : Tree} (h : tree ts t)
    (hts : ts.IsChain Apart) : t.Complete := by
  obtain ⟨_, xs, _, zs, rfl, -, hys, -⟩ := tree_iff_parts.1 h
  obtain ⟨ps, hps, rfl, hmap⟩ := Lang.iterate_collect_iff.1 hys
  intro b hb
  rw [hmap, List.nil_append] at hb
  obtain ⟨p, hp, rfl⟩ := List.mem_map.1 hb
  obtain ⟨us, vs, rfl⟩ := List.append_of_mem hp
  refine leftover_of_isChain (hps p hp) ?_
  apply hts.infix
  exact ⟨xs ++ us.flatMap Prod.fst, vs.flatMap Prod.fst ++ zs, by simp⟩

end Syntax

/-! ### Accepted sources -/

variable {source : Bytes} {firstAbirevision : UInt64} {firstFuncid : UInt32} {I : InterfaceNode}

/-- Every annotation of the source is attached to the node that follows it: `I` is what the parser
makes of the tree of the source, and nothing is left over in the tree. -/
def Attached (source : Bytes) (firstFuncid : UInt32) (I : InterfaceNode) : Prop :=
  ∃ ts t, ts <+: lexemes source ∧ Syntax.tree ts t ∧ I = t.interface firstFuncid ∧ t.Complete

/-- **What becomes of annotations.** In a source that `parse` accepts every annotation is attached
to the node behind it, if and only if in the text of the interface no closing parenthesis stands
directly before a closing brace. -/
theorem attached_iff (h : parse source firstAbirevision firstFuncid = .ok (some I)) :
    Attached source firstFuncid I ↔
      ∀ ts, ts <+: lexemes source → (∃ t, Syntax.tree ts t) → ts.IsChain Apart := by
  constructor
  · rintro ⟨us, u, hus, hu, -, hcomplete⟩ ts hts ⟨t, ht⟩
    rw [(tree_unique hts ht hus hu firstFuncid).2]
    exact Syntax.isChain_of_complete hu hcomplete
  · intro hchain
    obtain ⟨ts, hts, hdecl⟩ := parse_eq_some_iff.1 h
    obtain ⟨t, ht, -, rfl⟩ := Syntax.interfaceDecl_iff_tree.1 hdecl
    exact ⟨ts, t, hts, ht, rfl, Syntax.complete_of_isChain ht (hchain ts hts ⟨t, ht⟩)⟩

/-! ### Two sources with an annotation -/

/-- An interface up to an annotation in its first block. -/
def annotationSource : Bytes :=
  ascii "interface a\x7babirevision 0\x7b@x()"

def annotationLexemes : List Lexeme :=
  [(.kwdInterface, ascii "interface"), (.identifier, ascii "a"), (op '\x7b', ascii "\x7b"),
    (.kwdAbirevision, ascii "abirevision"), (.number, ascii "0"), (op '\x7b', ascii "\x7b"),
    (op '@', ascii "@"), (.identifier, ascii "x"), (op '(', ascii "("), (op ')', ascii ")")]

theorem lexemes_annotationSource (r : Bytes) :
    lexemes (annotationSource ++ r) = annotationLexemes ++ lexemes r := by
  show lexemes (ascii "interface" ++
    (chr ' ' :: (ascii "a" ++ (chr '\x7b' :: (ascii "abirevision" ++
    (chr ' ' :: (Decimal.numeral 0 ++ (chr '\x7b' :: chr '@' :: (ascii "x" ++ (chr '(' :: chr ')' ::
      r)))))))))) = _
  have hends {c : UInt8} {s : Bytes} (hc : Lexer.isWordChar c = false) : EndsWord (c :: s) := by
    rintro d ⟨⟩
    exact hc
  rw [lexemes_word (by decide +kernel) (hends (by decide)), lexemes_blank (by decide),
    lexemes_word (by decide +kernel) (hends (by decide)), lexemes_operator (by decide),
    lexemes_word (by decide +kernel) (hends (by decide)), lexemes_blank (by decide),
    lexemes_numeral 0 (hends (by decide)), lexemes_operator (by decide),
    lexemes_operator (by decide), lexemes_word (by decide +kernel) (hends (by decide)),
    lexemes_operator (by decide), lexemes_operator (by decide)]
  rfl

/-- An annotation with a declaration behind it. -/
def annotatedSource : Bytes :=
  annotationSource ++ ascii "struct b\x7b\x7d;\x7d\x7d"

def annotatedLexemes : List Lexeme :=
  annotationLexemes ++ [(.kwdStruct, ascii "struct"), (.identifier, ascii "b"),
    (op '\x7b', ascii "\x7b"), (op '\x7d', ascii "\x7d"), (op ';', ascii ";"),
    (op '\x7d', ascii "\x7d"), (op '\x7d', ascii "\x7d")]

def annotatedInterface : InterfaceNode where
  name := ascii "a"
  abiversions := [{
    version := 0
    structs := [{
      name := ascii "b"
      annotations := [{ name := ascii "x", args := [] }]
      fields := [] }] }]

theorem lexemes_annotatedSource : lexemes annotatedSource = annotatedLexemes := by
  have hends {c : UInt8} {s : Bytes} (hc : Lexer.isWordChar c = false) : EndsWord (c :: s) := by
    rintro d ⟨⟩
    exact hc
  show lexemes (annotationSource ++ (ascii "struct" ++ (chr ' ' :: (ascii "b" ++ [chr '\x7b',
    chr '\x7d', chr ';', chr '\x7d', chr '\x7d'])))) = _
  rw [lexemes_annotationSource, lexemes_word (by decide +kernel) (hends (by decide)),
    lexemes_blank (by decide), lexemes_word (by decide +kernel) (hends (by decide)),
    lexemes_operator (by decide), lexemes_operator (by decide), lexemes_operator (by decide),
    lexemes_operator (by decide), lexemes_operator (by decide), lexemes_nil]
  rfl

/-- With a declaration behind it the annotation is attached. -/
theorem attached_annotatedSource : Attached annotatedSource 0 annotatedInterface := by
  have hparse : parse annotatedSource 0 0 = .ok (some annotatedInterface) := by decide +kernel
  refine (attached_iff hparse).2 fun ts hts _ => ?_
  have hchain : annotatedLexemes.IsChain Apart := by
    simp [annotatedLexemes, annotationLexemes, Apart, op, chr]
  rw [lexemes_annotatedSource] at hts
  exact hchain.infix hts.isInfix

/-- An annotation with nothing behind it. -/
def looseSource : Bytes :=
  annotationSource ++ ascii "\x7d\x7d"

def looseLexemes : List Lexeme :=
  annotationLexemes ++ [(op '\x7d', ascii "\x7d"), (op '\x7d', ascii "\x7d")]

theorem lexemes_looseSource : lexemes looseSource = looseLexemes := by
  show lexemes (annotationSource ++ [chr '\x7d', chr '\x7d']) = _
  rw [lexemes_annotationSource, lexemes_operator (by decide), lexemes_operator (by decide),
    lexemes_nil]
  rfl

/-- The annotation of `looseSource` is dropped. -/
theorem not_attached_looseSource : ∃ I, parse looseSource 0 0 = .ok (some I) ∧
    ¬ Attached looseSource 0 I := by
  refine ⟨{ name := ascii "a", abiversions := [{ version := 0 }] }, by decide +kernel, ?_⟩
  rintro ⟨ts, t, hts, ht, -, hcomplete⟩
  have hchain := Syntax.isChain_of_complete ht hcomplete
  rw [lexemes_looseSource] at hts
  obtain ⟨brace, hmem, hbrace⟩ : ∃ u ∈ ts, u.1 = op '\x7d' := by
    obtain ⟨_, xs, ys, _, rfl, -, -, hzs⟩ := Syntax.tree_iff_parts.1 ht
    obtain ⟨u, rfl, hu⟩ := Syntax.token_iff.1 hzs
    exact ⟨u, by simp, hu⟩
  -- the text of the interface reaches behind the annotation
  have hlong : 10 < ts.length := by
    by_contra hshort
    have hpre : ts <+: looseLexemes.take 10 :=
      List.prefix_take_iff.2 ⟨hts, by omega⟩
    have hnone : ∀ u ∈ looseLexemes.take 10, u.1 ≠ op '\x7d' := by decide
    exact hnone brace (hpre.subset hmem) hbrace
  have htake : looseLexemes.take 11 <+: looseLexemes := List.take_prefix ..
  have hpair : looseLexemes.take 11 <+: ts :=
    List.prefix_of_prefix_length_le htake hts (by
      rw [List.length_take]
      omega)
  have hloose : ¬ (looseLexemes.take 11).IsChain Apart := by
    simp [looseLexemes, annotationLexemes, Apart, op, chr]
  apply hloose
  exact hchain.infix hpair.isInfix

end Sidlc
