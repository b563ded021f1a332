import Sidlc.Equiv.SyntaxTrees

/-!
# Syntax trees have sources

Whatever the order of its declarations, a syntax tree can be printed: the text of its parts is read
as the tree again (`prints_tree`), and parsed when its revisions are contiguous
(`Syntax.Tree.parse_print`).
-/

namespace Sidlc

open Grammar Decimal Sidlc.Parser

/-- The declaration as the grammar has it: without sizes, and with the id `0` for a function. -/
def Declaration.bare : Declaration → Declaration
  | bitfield node => .bitfield node.bare
  | enum node => .enum node.bare
  | struct node => .struct node.bare
  | function node => .function { node.bare with id := 0 }

theorem prints_annotatedDeclaration {d : Declaration} (h : d.Printable) :
    PrintsAs d.print Syntax.declaration d.bare := by
  cases d with
  | bitfield node =>
    have hbare :
        PrintsAs _ Syntax.bareDeclaration (.bitfield { node.bare with annotations := [] }) :=
      ((prints_bitfieldDecl h).thenReturn Declaration.bitfield).orLeft.orRight.orRight
    exact (prints_annotations h.2.1 2).andThen
      (hbare.thenReturn fun d => d.annotate node.annotations)
  | enum node =>
    have hbare : PrintsAs _ Syntax.bareDeclaration (.enum { node.bare with annotations := [] }) :=
      ((prints_enumDecl h).thenReturn Declaration.enum).orRight.orRight.orRight
    exact (prints_annotations h.2.1 2).andThen
      (hbare.thenReturn fun d => d.annotate node.annotations)
  | struct node =>
    have hbare : PrintsAs _ Syntax.bareDeclaration (.struct { node.bare with annotations := [] }) :=
      ((prints_structDecl h).thenReturn Declaration.struct).orLeft.orRight
    exact (prints_annotations h.2.1 2).andThen
      (hbare.thenReturn fun d => d.annotate node.annotations)
  | function node =>
    have hbare : PrintsAs _ Syntax.bareDeclaration
        (.function { node.bare with annotations := [], id := 0 }) :=
      ((prints_functionDecl h {}).thenReturn fun result => Declaration.function result.1).orLeft
    exact (prints_annotations h.2.1 2).andThen
      (hbare.thenReturn fun d => d.annotate node.annotations)

namespace Syntax

/-! ### Blocks -/

namespace Block

def print (b : Block) : Bytes :=
  writeIndent 1 ++ (ascii "abirevision " ++ (numeral b.version.toNat ++ (ascii " \x7b\n" ++
    (b.declarations.flatMap Declaration.print ++ (decompileAnnotations b.leftover 2 ++
      (writeIndent 1 ++ ascii "\x7d\n"))))))

structure Printable (b : Block) : Prop where
  declarations : ∀ d ∈ b.declarations, d.Printable ∧ d.bare = d
  leftover : ∀ node ∈ b.leftover, node.Printable

end Block

theorem prints_block {b : Block} (h : b.Printable) : PrintsAs b.print block b := by
  have hkeyword : PrintsAs (ascii "abirevision ") (token .kwdAbirevision) () :=
    prints_keywordBlank (ascii "abirevision") (by simp [Lexer.keywords])
  have hlist : PrintsAs (b.declarations.flatMap Declaration.print) declarations b.declarations := by
    refine Prints.iterateFlatMap (G := id) fun ys d hd => ?_
    have hprints := prints_annotatedDeclaration (h.declarations d hd).1
    rw [(h.declarations d hd).2] at hprints
    exact hprints.thenReturn (ys ++ [·])
  have hclose : PrintsAs (writeIndent 1 ++ ascii "\x7d\n") (token (op '\x7d')) () :=
    prints_closeBrace.skip (lexemes_writeIndent 1)
  refine Prints.skip (lexemes_writeIndent 1) (hkeyword.andThen
    ((prints_number b.version).bind (prints_open.andThen (hlist.andThen
      ((prints_annotations h.leftover 2).andThen (hclose.thenReturn fun _ => _)))) ?_))
  exact fun r _ => endsWord_cons (by decide) _

/-! ### Trees -/

namespace Tree

def print (t : Tree) : Bytes :=
  decompileAnnotations t.annotations 0 ++ (ascii "interface " ++ (t.name ++ (ascii " \x7b\n" ++
    (t.blocks.flatMap Block.print ++ ascii "\x7d\n"))))

structure Printable (t : Tree) : Prop where
  name : IsIdentifier t.name
  annotations : ∀ node ∈ t.annotations, node.Printable
  blocks : ∀ b ∈ t.blocks, b.Printable

end Tree

theorem prints_blocks {bs : List Block} (h : ∀ b ∈ bs, b.Printable) :
    PrintsAs (bs.flatMap Block.print) blocks bs := by
  refine Prints.iterateFlatMap (G := id) fun ys b hb => ?_
  exact (prints_block (h b hb)).thenReturn (ys ++ [·])

/-- **A printed tree is read again.** -/
theorem prints_tree {t : Tree} (h : t.Printable) : PrintsAs t.print tree t := by
  have hkeyword : PrintsAs (ascii "interface ") (token .kwdInterface) () :=
    prints_keywordBlank (ascii "interface") (by simp [Lexer.keywords])
  refine (prints_annotations h.annotations 0).andThen (hkeyword.andThen
    ((prints_identifier h.name).bind (prints_open.andThen ((prints_blocks h.blocks).andThen
      (prints_closeBrace.thenReturn fun _ => _))) ?_))
  exact fun r _ => endsWord_cons (by decide) _

theorem Tree.Printable.tree_lexemes {t : Tree} (h : t.Printable) : tree (lexemes t.print) t :=
  ((prints_tree h).self lexemes_nil).1

/-- A printed tree with contiguous revisions is parsed. -/
theorem Tree.Printable.parse_print {t : Tree} (h : t.Printable) {firstAbirevision : UInt64}
    (hversions : ContiguousFrom firstAbirevision (t.blocks.map Block.version))
    (firstFuncid : UInt32) :
    parse t.print firstAbirevision firstFuncid = .ok (some (t.interface firstFuncid)) :=
  parse_eq_some_iff.2 ⟨_, List.prefix_refl _,
    interfaceDecl_iff_tree.2 ⟨t, h.tree_lexemes, hversions, rfl⟩⟩

end Syntax

end Sidlc
