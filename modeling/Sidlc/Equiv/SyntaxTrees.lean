import Sidlc.Equiv.Acceptance
import Sidlc.Equiv.Sentences

/-!
# Syntax trees

The interface that a source denotes does not show how the declarations of different kinds in a block
are interleaved, nor the annotations that no declaration follows. A syntax tree shows both, and
every annotation of it belongs to the node it stands before. An interface is the elaboration of a
syntax tree with contiguous revisions (`interfaceDecl_iff_tree`).
-/

namespace Sidlc

open Grammar Sidlc.Parser

/-! ### Declarations -/

namespace Declaration

inductive Kind where
  | bitfield
  | enum
  | struct
  | function
  deriving DecidableEq

def kind : Declaration → Kind
  | bitfield _ => .bitfield
  | enum _ => .enum
  | struct _ => .struct
  | function _ => .function

def bitfield? : Declaration → Option BitfieldNode
  | bitfield node => some node
  | _ => none

def enum? : Declaration → Option EnumNode
  | enum node => some node
  | _ => none

def struct? : Declaration → Option StructNode
  | struct node => some node
  | _ => none

def function? : Declaration → Option FunctionNode
  | function node => some node
  | _ => none

/-- The declaration with the annotations that stand before it. -/
def annotate (annotations : List AnnotationNode) : Declaration → Declaration
  | bitfield node => .bitfield { node with annotations }
  | enum node => .enum { node with annotations }
  | struct node => .struct { node with annotations }
  | function node => .function { node with annotations }

end Declaration

namespace Parser.Revision

/-- The revision after a declaration, which goes behind those of its kind. A function takes the next
id. -/
def add (r : Revision) : Declaration → Revision
  | .bitfield node => ⟨{ r.node with bitfields := r.node.bitfields ++ [node] }, [], r.interface⟩
  | .enum node => ⟨{ r.node with enums := r.node.enums ++ [node] }, [], r.interface⟩
  | .struct node => ⟨{ r.node with structs := r.node.structs ++ [node] }, [], r.interface⟩
  | .function node =>
    ⟨{ r.node with
        functions := r.node.functions ++ [{ node with id := r.interface.currentFuncid }] }, [],
      r.interface.takeIds 1⟩

open Declaration (bitfield? enum? struct? function?) in
/-- Each kind of declaration is collected by itself. -/
theorem foldl_add (ds : List Declaration) (node : AbiversionNode) (interface : InterfaceNode) :
    ds.foldl add ⟨node, [], interface⟩ =
      ⟨{ node with
          functions := node.functions ++
            renumberFunctions interface.currentFuncid (ds.filterMap function?)
          structs := node.structs ++ ds.filterMap struct?
          bitfields := node.bitfields ++ ds.filterMap bitfield?
          enums := node.enums ++ ds.filterMap enum? }, [],
        interface.takeIds (ds.filterMap function?).length⟩ := by
  induction ds generalizing node interface with
  | nil => simp [renumberFunctions, InterfaceNode.takeIds]
  | cons d ds ih =>
    cases d with
    | bitfield b => simp [add, ih, List.filterMap_cons, bitfield?, enum?, struct?, function?]
    | enum e => simp [add, ih, List.filterMap_cons, bitfield?, enum?, struct?, function?]
    | struct s => simp [add, ih, List.filterMap_cons, bitfield?, enum?, struct?, function?]
    | function f =>
      simp [add, ih, List.filterMap_cons, bitfield?, enum?, struct?, function?, renumberFunctions,
        InterfaceNode.takeIds, UInt32.ofNat_add, UInt32.add_assoc, UInt32.add_comm 1]

end Parser.Revision

namespace Syntax

/-- A declaration without the annotations before it, and with the id `0` if it is a function. -/
def bareDeclaration : Lang Lexeme Declaration :=
  (do
    let (func, _) ← functionDecl {}
    return .function func : Lang Lexeme Declaration).or
  ((do let strct ← structDecl; return .struct strct : Lang Lexeme Declaration).or
  ((do let bitfield ← bitfieldDecl; return .bitfield bitfield : Lang Lexeme Declaration).or
  (do let enumNode ← enumDecl; return .enum enumNode)))

theorem bareDeclaration_iff {ts : List Lexeme} {d : Declaration} :
    bareDeclaration ts d ↔
      (∃ func interface, functionDecl {} ts (func, interface) ∧ d = .function func) ∨
      (∃ strct, structDecl ts strct ∧ d = .struct strct) ∨
      (∃ bitfield, bitfieldDecl ts bitfield ∧ d = .bitfield bitfield) ∨
      ∃ enumNode, enumDecl ts enumNode ∧ d = .enum enumNode :=
  or_congr (Lang.bind_pure_iff.trans Prod.exists) (or_congr Lang.bind_pure_iff
    (or_congr Lang.bind_pure_iff Lang.bind_pure_iff))

/-- A declaration and the annotations before it. -/
def declaration : Lang Lexeme Declaration := do
  let annotations ← annotations
  let d ← bareDeclaration
  return d.annotate annotations

def declarations : Lang Lexeme (List Declaration) :=
  .iterate (fun ds => do
    let d ← declaration
    return ds ++ [d]) []

/-- An annotation becomes pending, and a declaration takes the pending ones. -/
theorem revisionItem_iff {r r' : Revision} {ts : List Lexeme} :
    revisionItem r ts r' ↔
      (∃ node, annotation ts node ∧ r' = { r with annotations := r.annotations ++ [node] }) ∨
      ∃ d, bareDeclaration ts d ∧ r' = r.add (d.annotate r.annotations) := by
  rw [revisionItem_iff_parts]
  constructor
  · rintro (h | ⟨func, interface, hfunc, rfl⟩ | ⟨strct, hstruct, rfl⟩ | ⟨bitfield, hbitfield, rfl⟩ |
      ⟨enumNode, henum, rfl⟩)
    · exact .inl h
    · obtain ⟨name, parameters, hts, heq⟩ := functionDecl_iff.1 hfunc
      obtain ⟨rfl, rfl⟩ := Prod.mk.inj heq
      -- a bare function has the id `0`, and adding it gives it the next one
      refine .inr ⟨_, bareDeclaration_iff.2 (.inl ⟨_, _, functionDecl_iff.2 ⟨_, _, hts, rfl⟩, rfl⟩),
        ?_⟩
      simp [Revision.add, Declaration.annotate, InterfaceNode.takeIds]
    · exact .inr ⟨_, bareDeclaration_iff.2 (.inr (.inl ⟨strct, hstruct, rfl⟩)), rfl⟩
    · exact .inr ⟨_, bareDeclaration_iff.2 (.inr (.inr (.inl ⟨bitfield, hbitfield, rfl⟩))), rfl⟩
    · exact .inr ⟨_, bareDeclaration_iff.2 (.inr (.inr (.inr ⟨enumNode, henum, rfl⟩))), rfl⟩
  · rintro (h | ⟨d, hd, rfl⟩)
    · exact .inl h
    rcases bareDeclaration_iff.1 hd with ⟨func, interface, hfunc, rfl⟩ | ⟨strct, hstruct, rfl⟩ |
      ⟨bitfield, hbitfield, rfl⟩ | ⟨enumNode, henum, rfl⟩
    · exact .inr (.inl ⟨_, _, functionDecl_of_functionDecl hfunc r.interface, rfl⟩)
    · exact .inr (.inr (.inl ⟨strct, hstruct, rfl⟩))
    · exact .inr (.inr (.inr (.inl ⟨bitfield, hbitfield, rfl⟩)))
    · exact .inr (.inr (.inr (.inr ⟨enumNode, henum, rfl⟩)))

/-- The annotations before a declaration are pending when it comes. -/
theorem revisionItems_of_annotations {r : Revision} {ts : List Lexeme} {as : List AnnotationNode}
    (h : annotations ts as) :
    Lang.iterate revisionItem r ts { r with annotations := r.annotations ++ as } := by
  obtain ⟨ps, hps, rfl, rfl⟩ := Lang.iterate_collect_iff.1 h
  clear h
  rw [List.nil_append]
  induction ps generalizing r with
  | nil =>
    rw [List.map_nil, List.append_nil]
    exact .done r
  | cons p ps ih =>
    rw [List.forall_mem_cons] at hps
    have hrest := ih (r := { r with annotations := r.annotations ++ [p.2] }) hps.2
    rw [List.append_assoc, List.singleton_append] at hrest
    exact .step (revisionItem_iff.2 (.inl ⟨p.2, hps.1, rfl⟩)) hrest

theorem annotations_append {xs ys : List Lexeme} {as : List AnnotationNode} {node : AnnotationNode}
    (hxs : annotations xs as) (hys : annotation ys node) :
    annotations (xs ++ ys) (as ++ [node]) := by
  have hround : Lang.iterate (fun as : List AnnotationNode => do
      let node ← annotation
      return as ++ [node]) as (ys ++ []) (as ++ [node]) :=
    .step ⟨node, ys, [], (List.append_nil ys).symm, hys, rfl, rfl⟩ (.done _)
  rw [List.append_nil] at hround
  exact Lang.iterate.append hxs hround

/-- The items are declarations and the annotations left over, where the annotations `ps` before them
are pending. -/
theorem declarations_of_revisionItems {r r' : Revision} {ps ts : List Lexeme}
    (hps : annotations ps r.annotations) (h : Lang.iterate revisionItem r ts r') :
    ∃ ds leftover xs ys, ps ++ ts = xs ++ ys ∧ declarations xs ds ∧ annotations ys leftover ∧
      r' = { ds.foldl Revision.add { r with annotations := [] } with annotations := leftover } := by
  induction h generalizing ps with
  | done r => exact ⟨[], r.annotations, [], ps, by simp, .done [], hps, rfl⟩
  | @step r r₁ r₂ us vs hitem _ ih =>
    rcases revisionItem_iff.1 hitem with ⟨node, hnode, rfl⟩ | ⟨d, hd, rfl⟩
    · obtain ⟨ds, leftover, xs, ys, hxs, hds, hys, rfl⟩ := ih (annotations_append hps hnode)
      exact ⟨ds, leftover, xs, ys, by rw [← List.append_assoc, hxs], hds, hys, rfl⟩
    · have hd' : declaration (ps ++ us) (d.annotate r.annotations) :=
        ⟨_, ps, us, rfl, hps, d, us, [], (List.append_nil us).symm, hd, rfl, rfl⟩
      have hnone : (r.add (d.annotate r.annotations)).annotations = [] := by cases d <;> rfl
      have hadd : ({ r with annotations := [] } : Revision).add (d.annotate r.annotations)
          = { r.add (d.annotate r.annotations) with annotations := [] } := by cases d <;> rfl
      obtain ⟨ds, leftover, xs, ys, hxs, hds, hys, rfl⟩ :=
        ih (show annotations [] _ by rw [hnone]; exact .done [])
      refine ⟨_ :: ds, leftover, ps ++ us ++ xs, ys, ?_, Lang.iterate_collect_cons hd' hds, hys, ?_⟩
      · rw [List.nil_append] at hxs
        rw [hxs, List.append_assoc, List.append_assoc]
      · rw [List.foldl_cons, hadd]

theorem revisionItems_of_declarations {r : Revision} (hr : r.annotations = []) {ts : List Lexeme}
    {ds : List Declaration} (h : declarations ts ds) :
    Lang.iterate revisionItem r ts (ds.foldl Revision.add r) := by
  obtain ⟨ps, hps, rfl, rfl⟩ := Lang.iterate_collect_iff.1 h
  clear h
  rw [List.nil_append]
  induction ps generalizing r with
  | nil => exact .done r
  | cons p ps ih =>
    rw [List.forall_mem_cons] at hps
    obtain ⟨⟨as, us, vs, hus, has, d, _, _, rfl, hd, rfl, hannotate⟩, hps⟩ := hps
    -- first its annotations become pending, then the declaration takes them
    have hpending := revisionItems_of_annotations (r := r) has
    rw [hr, List.nil_append] at hpending
    have hitem : revisionItem { r with annotations := as } (_ ++ []) _ :=
      revisionItem_iff.2 (.inr ⟨d, by rwa [List.append_nil], rfl⟩)
    have hadd : ({ r with annotations := as } : Revision).add (d.annotate as) = r.add p.2 := by
      rw [hannotate]
      cases d <;> rfl
    have hnone : (r.add p.2).annotations = [] := by rw [hannotate]; cases d <;> rfl
    rw [hadd] at hitem
    rw [List.flatMap_cons, List.map_cons, List.foldl_cons, hus, List.append_assoc]
    exact hpending.append (.step hitem (ih hnone hps))

/-- **The items of a block** are declarations with their annotations, and annotations left over. -/
theorem revisionItems_iff {node : AbiversionNode} {interface : InterfaceNode} {ts : List Lexeme}
    {r : Revision} :
    Lang.iterate revisionItem ⟨node, [], interface⟩ ts r ↔
      ∃ ds leftover xs ys, ts = xs ++ ys ∧ declarations xs ds ∧ annotations ys leftover ∧
        r = { ds.foldl Revision.add ⟨node, [], interface⟩ with annotations := leftover } := by
  constructor
  · exact declarations_of_revisionItems (r := ⟨node, [], interface⟩)
      (show annotations [] [] from .done [])
  · rintro ⟨ds, leftover, xs, ys, rfl, hds, hleftover, rfl⟩
    have hitems := revisionItems_of_declarations (r := ⟨node, [], interface⟩) rfl hds
    have hpending := revisionItems_of_annotations
      (r := ds.foldl Revision.add ⟨node, [], interface⟩) hleftover
    rw [Revision.foldl_add, List.nil_append] at hpending
    rw [Revision.foldl_add] at hitems ⊢
    exact hitems.append hpending

/-! ### Blocks and interfaces -/

/-- An `abirevision` as it is written. -/
structure Block where
  version : UInt64
  declarations : List Declaration
  leftover : List AnnotationNode

/-- An interface as it is written. -/
structure Tree where
  name : Bytes
  annotations : List AnnotationNode
  blocks : List Block

namespace Block

/-- The revision that the parser makes of a block. -/
def revision (b : Block) (interface : InterfaceNode) : Revision :=
  b.declarations.foldl Revision.add ⟨{ version := b.version }, [], interface⟩

theorem version_revision (b : Block) (interface : InterfaceNode) :
    (b.revision interface).node.version = b.version := by
  rw [revision, Revision.foldl_add]

theorem interface_revision (b : Block) (interface : InterfaceNode) :
    (b.revision interface).interface =
      interface.takeIds (b.declarations.filterMap Declaration.function?).length := by
  rw [revision, Revision.foldl_add]

/-- The interface with the block added to it. -/
def elaborate (interface : InterfaceNode) (b : Block) : InterfaceNode :=
  { (b.revision interface).interface with
    abiversions := interface.abiversions ++ [(b.revision interface).node] }

end Block

namespace Tree

/-- The numbers are `first`, `first + 1`, ..., in sixty-four bits. -/
def ContiguousFrom : UInt64 → List UInt64 → Prop
  | _, [] => True
  | first, version :: versions => version = first ∧ ContiguousFrom (first + 1) versions

/-- The interface that the parser makes of a tree. -/
def interface (t : Tree) (firstFuncid : UInt32) : InterfaceNode :=
  t.blocks.foldl Block.elaborate
    { name := t.name, annotations := t.annotations, currentFuncid := firstFuncid }

end Tree

def block : Lang Lexeme Block := do
  token .kwdAbirevision
  let version ← number
  token (op '\x7b')
  let declarations ← declarations
  let leftover ← annotations
  token (op '\x7d')
  return { version, declarations, leftover }

def blocks : Lang Lexeme (List Block) :=
  .iterate (fun bs => do
    let b ← block
    return bs ++ [b]) []

def tree : Lang Lexeme Tree := do
  let annotations ← annotations
  token .kwdInterface
  let name ← identifier
  token (op '\x7b')
  let blocks ← blocks
  token (op '\x7d')
  return { name, annotations, blocks }

theorem block_iff_parts {ts : List Lexeme} {b : Block} :
    block ts b ↔ ∃ u xs us vs zs, ts = xs ++ ((us ++ vs) ++ zs) ∧ revisionHeader xs b.version ∧
      declarations us b.declarations ∧ annotations vs b.leftover ∧ token (op '\x7d') zs u := by
  have heq : block = (do
      let version ← revisionHeader
      let (declarations, leftover) ← (do
        let ds ← declarations
        let as ← annotations
        return (ds, as))
      let _ ← token (op '\x7d')
      return { version, declarations, leftover }) := by
    simp only [block, revisionHeader, bind_assoc, pure_bind]
  rw [heq, Lang.enclosed_iff]
  constructor
  · rintro ⟨version, _, u, xs, _, zs, rfl, hxs,
      ⟨ds, us, _, rfl, hus, as, vs, _, rfl, hvs, rfl, rfl⟩, hzs, rfl⟩
    rw [List.append_nil]
    exact ⟨u, xs, us, vs, zs, rfl, hxs, hus, hvs, hzs⟩
  · rintro ⟨u, xs, us, vs, zs, rfl, hxs, hus, hvs, hzs⟩
    refine ⟨b.version, (b.declarations, b.leftover), u, xs, us ++ vs, zs, rfl, hxs, ?_, hzs, rfl⟩
    exact ⟨_, us, vs, rfl, hus, _, vs, [], (List.append_nil vs).symm, hvs, rfl, rfl⟩

theorem tree_iff_parts {ts : List Lexeme} {t : Tree} :
    tree ts t ↔ ∃ u xs ys zs, ts = xs ++ (ys ++ zs) ∧ heading xs (t.annotations, t.name) ∧
      blocks ys t.blocks ∧ token (op '\x7d') zs u := by
  have heq : tree = (do
      let (annotations, name) ← heading
      let blocks ← blocks
      let _ ← token (op '\x7d')
      return { name, annotations, blocks }) := by
    simp only [tree, heading, bind_assoc, pure_bind]
  rw [heq, Lang.enclosed_iff]
  constructor
  · rintro ⟨⟨as, name⟩, bs, u, xs, ys, zs, rfl, hxs, hys, hzs, rfl⟩
    exact ⟨u, xs, ys, zs, rfl, hxs, hys, hzs⟩
  · rintro ⟨u, xs, ys, zs, rfl, hxs, hys, hzs⟩
    exact ⟨_, _, u, xs, ys, zs, rfl, hxs, hys, hzs, rfl⟩

theorem abirevision_iff_block {interface : InterfaceNode} {ts : List Lexeme}
    {result : AbiversionNode × InterfaceNode} :
    abirevision interface ts result ↔
      ∃ b, block ts b ∧
        result = ((b.revision interface).node, (b.revision interface).interface) := by
  rw [abirevision_iff_parts]
  constructor
  · rintro ⟨version, r, u, xs, ys, zs, rfl, hxs, hys, hzs, rfl⟩
    obtain ⟨ds, leftover, us, vs, rfl, hds, hleftover, rfl⟩ := revisionItems_iff.1 hys
    have hblock : block (xs ++ ((us ++ vs) ++ zs)) ⟨version, ds, leftover⟩ :=
      block_iff_parts.2 ⟨u, xs, us, vs, zs, rfl, hxs, hds, hleftover, hzs⟩
    exact ⟨_, hblock, rfl⟩
  · rintro ⟨b, hb, rfl⟩
    obtain ⟨u, xs, us, vs, zs, rfl, hxs, hds, hleftover, hzs⟩ := block_iff_parts.1 hb
    refine ⟨b.version, { b.revision interface with annotations := b.leftover }, u, xs, us ++ vs, zs,
      rfl, hxs, ?_, hzs, rfl⟩
    exact revisionItems_iff.2 ⟨b.declarations, b.leftover, us, vs, rfl, hds, hleftover, rfl⟩

theorem nextRevision_iff_block {firstAbirevision : UInt64} {interface result : InterfaceNode}
    {ts : List Lexeme} :
    nextRevision firstAbirevision interface ts result ↔
      ∃ b, block ts b ∧
        b.version = firstAbirevision + UInt64.ofNat interface.abiversions.length ∧
        result = b.elaborate interface := by
  rw [nextRevision_iff]
  constructor
  · rintro ⟨_, _, hx, hversion, rfl⟩
    obtain ⟨b, hb, heq⟩ := abirevision_iff_block.1 hx
    obtain ⟨rfl, rfl⟩ := Prod.mk.inj heq
    rw [Block.version_revision, Block.interface_revision] at hversion
    refine ⟨b, hb, hversion, ?_⟩
    rw [Block.elaborate, Block.interface_revision]
    rfl
  · rintro ⟨b, hb, hversion, rfl⟩
    refine ⟨_, _, abirevision_iff_block.2 ⟨b, hb, rfl⟩, ?_, ?_⟩
    · rw [Block.version_revision, Block.interface_revision]
      exact hversion
    · rw [Block.elaborate, Block.interface_revision]
      rfl

theorem nextRevisions_iff_blocks {firstAbirevision : UInt64} {interface result : InterfaceNode}
    {ts : List Lexeme} :
    Lang.iterate (nextRevision firstAbirevision) interface ts result ↔
      ∃ bs, blocks ts bs ∧
        Tree.ContiguousFrom (firstAbirevision + UInt64.ofNat interface.abiversions.length)
          (bs.map Block.version) ∧
        result = bs.foldl Block.elaborate interface := by
  -- a block adds one revision, so the next number goes up by one
  have hnext (b : Block) (interface : InterfaceNode) :
      firstAbirevision + UInt64.ofNat (b.elaborate interface).abiversions.length
        = firstAbirevision + UInt64.ofNat interface.abiversions.length + 1 := by
    rw [Block.elaborate, List.length_append, List.length_singleton, UInt64.ofNat_add,
      UInt64.add_assoc]
    rfl
  constructor
  · intro h
    induction h with
    | done interface => exact ⟨[], .done [], trivial, rfl⟩
    | step hx _ ih =>
      obtain ⟨b, hb, hversion, rfl⟩ := nextRevision_iff_block.1 hx
      obtain ⟨bs, hbs, hversions, rfl⟩ := ih
      rw [hnext] at hversions
      exact ⟨b :: bs, Lang.iterate_collect_cons hb hbs, ⟨hversion, hversions⟩, rfl⟩
  · rintro ⟨bs, hbs, hversions, rfl⟩
    obtain ⟨ps, hps, rfl, rfl⟩ := Lang.iterate_collect_iff.1 hbs
    clear hbs
    rw [List.nil_append] at hversions ⊢
    induction ps generalizing interface with
    | nil => exact .done interface
    | cons p ps ih =>
      rw [List.forall_mem_cons] at hps
      obtain ⟨hversion, hversions⟩ := hversions
      rw [← hnext p.2] at hversions
      rw [List.flatMap_cons, List.map_cons, List.foldl_cons]
      exact .step (nextRevision_iff_block.2 ⟨p.2, hps.1, hversion, rfl⟩) (ih hps.2 hversions)

/-- **An interface is a syntax tree with contiguous revisions.** -/
theorem interfaceDecl_iff_tree {firstAbirevision : UInt64} {firstFuncid : UInt32} {ts : List Lexeme}
    {interface : InterfaceNode} :
    interfaceDecl firstAbirevision firstFuncid ts interface ↔
      ∃ t, tree ts t ∧ Tree.ContiguousFrom firstAbirevision (t.blocks.map Block.version) ∧
        interface = t.interface firstFuncid := by
  have hfirst : firstAbirevision + UInt64.ofNat ([] : List AbiversionNode).length
      = firstAbirevision := UInt64.add_zero _
  rw [interfaceDecl_iff_parts]
  constructor
  · rintro ⟨header, result, u, xs, ys, zs, rfl, hxs, hys, hzs, rfl⟩
    obtain ⟨as, name, hheading, rfl⟩ := interfaceHeader_iff.1 hxs
    obtain ⟨bs, hbs, hversions, rfl⟩ := nextRevisions_iff_blocks.1 hys
    rw [hfirst] at hversions
    have htree : tree (xs ++ (ys ++ zs)) ⟨name, as, bs⟩ :=
      tree_iff_parts.2 ⟨u, xs, ys, zs, rfl, hheading, hbs, hzs⟩
    exact ⟨_, htree, hversions, rfl⟩
  · rintro ⟨t, ht, hversions, rfl⟩
    obtain ⟨u, xs, ys, zs, rfl, hheading, hbs, hzs⟩ := tree_iff_parts.1 ht
    have hheader := interfaceHeader_of_heading hheading firstFuncid
    rw [← hfirst] at hversions
    exact ⟨_, _, u, xs, ys, zs, rfl, hheader,
      nextRevisions_iff_blocks.2 ⟨t.blocks, hbs, hversions, rfl⟩, hzs, rfl⟩

/-- The numbers of the revisions are those of the blocks. -/
theorem Tree.versions_interface (t : Tree) (firstFuncid : UInt32) :
    (t.interface firstFuncid).abiversions.map AbiversionNode.version
    = t.blocks.map Block.version := by
  have hfold (bs : List Block) (interface : InterfaceNode) :
      (bs.foldl Block.elaborate interface).abiversions.map AbiversionNode.version
        = interface.abiversions.map AbiversionNode.version ++ bs.map Block.version := by
    induction bs generalizing interface with
    | nil => simp
    | cons b bs ih => simp [ih, Block.elaborate, Block.version_revision]
  exact (hfold t.blocks _).trans (List.nil_append _)

/-- An interface whose revisions may have any numbers. -/
def uncheckedInterface (firstFuncid : UInt32) : Lang Lexeme InterfaceNode := do
  let interface ← interfaceHeader firstFuncid
  let interface ← .iterate (fun interface => do
    let (abiversion, interface) ← abirevision interface
    return { interface with abiversions := interface.abiversions ++ [abiversion] }) interface
  token (op '\x7d')
  return interface

theorem uncheckedInterface_of_tree {ts : List Lexeme} {t : Tree} (h : tree ts t)
    (firstFuncid : UInt32) : uncheckedInterface firstFuncid ts (t.interface firstFuncid) := by
  obtain ⟨u, xs, ys, zs, rfl, hheading, hbs, hzs⟩ := tree_iff_parts.1 h
  -- the revisions are those of the blocks, whatever their numbers are
  have hblocks (interface : InterfaceNode) :
      Lang.iterate (fun interface => do
        let (abiversion, interface) ← abirevision interface
        return { interface with abiversions := interface.abiversions ++ [abiversion] })
        interface ys (t.blocks.foldl Block.elaborate interface) := by
    obtain ⟨ps, hps, rfl, hmap⟩ := Lang.iterate_collect_iff.1 hbs
    rw [hmap, List.nil_append]
    clear h hbs hmap
    induction ps generalizing interface with
    | nil => exact .done interface
    | cons p ps ih =>
      rw [List.forall_mem_cons] at hps
      have helaborate : p.2.elaborate interface = { (p.2.revision interface).interface with
          abiversions := (p.2.revision interface).interface.abiversions ++
            [(p.2.revision interface).node] } := by
        rw [Block.elaborate, Block.interface_revision]
        rfl
      have hrevision : abirevision interface p.1
          ((p.2.revision interface).node, (p.2.revision interface).interface) :=
        abirevision_iff_block.2 ⟨p.2, hps.1, rfl⟩
      refine .step ⟨_, p.1, [], (List.append_nil _).symm, hrevision, rfl, helaborate⟩ ?_
      exact ih (p.2.elaborate interface) hps.2
  have hheader := interfaceHeader_of_heading hheading firstFuncid
  exact Lang.enclosed_iff.2 ⟨_, _, u, xs, ys, zs, rfl, hheader, hblocks _, hzs, rfl⟩

end Syntax

/-- A text begins with at most one tree, up to what the parser makes of it. -/
theorem tree_unique {source : Bytes} {ts us : List Lexeme} {t u : Syntax.Tree}
    (hts : ts <+: lexemes source) (ht : Syntax.tree ts t) (hus : us <+: lexemes source)
    (hu : Syntax.tree us u) (firstFuncid : UInt32) :
    t.interface firstFuncid = u.interface firstFuncid ∧ ts = us := by
  -- a parser that does not look at the numbers of the revisions
  have hrec : Decides (do
      let interface ← parseInterfaceHeader firstFuncid
      let interface ← whileType (· ≠ op '\x7d') (fun interface => do
        let (abiversion, interface) ← parseAbiversion interface
        return { interface with abiversions := interface.abiversions ++ [abiversion] }) interface
      consume (op '\x7d')
      return interface) (Syntax.uncheckedInterface firstFuncid) := by
    refine (decides_interfaceHeader firstFuncid).bind fun header => ?_
    refine decides_whileType (fun interface => ?_) (fun interface => ?_) (fun interface => ?_)
      (fun interface => ?_) header
    · exact (decides_abiversion interface).bind fun _ => .pure _
    · exact Syntax.starts_ne (((Syntax.starts_token _).bind _).bind _) (by decide)
    · exact (decides_consume (by decide)).bind fun _ => .pure _
    · exact ((Syntax.starts_token _).bind _).mono fun t ht => not_not.2 ht
  have hahead : stream.ahead (start source) = lexemes source := ahead_start source
  obtain ⟨ts', hts'⟩ := hts
  obtain ⟨us', hus'⟩ := hus
  exact (hrec _ (valid_start source)).unique (valid_start source)
    (hahead.trans hts'.symm) (Syntax.uncheckedInterface_of_tree ht firstFuncid)
    (hahead.trans hus'.symm) (Syntax.uncheckedInterface_of_tree hu firstFuncid)

end Sidlc
