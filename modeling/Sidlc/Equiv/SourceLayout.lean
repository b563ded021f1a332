import Mathlib.Logic.Relation
import Sidlc.Equiv.Gaps
import Sidlc.Equiv.Recompile

/-!
# What the layout of a source does not change

Gaps between the tokens, the places of `@uuid` and `@prefix` among the annotations of the interface,
and the way declarations of different kinds are interleaved in a block do not show in the artifact
(`compile_relaid`). Gaps leave the tokens alone, the normalisation takes the identity out of the
annotations wherever it stands, and the kinds of declarations are collected one by one.
-/

namespace Sidlc

open Grammar Sidlc.Parser

namespace Syntax

/-! ### Declarations in another order -/

/-- The same declarations of each kind, in the same order. -/
def SameKinds {α : Type} (kind : α → Declaration.Kind) (xs ys : List α) : Prop :=
  ∀ k, xs.filter (fun x => kind x = k) = ys.filter (fun y => kind y = k)

/-- What is collected of one kind can be collected from the declarations of that kind. -/
theorem filterMap_of_kind {α : Type} {f : Declaration → Option α} {k : Declaration.Kind}
    (hf : ∀ d, d.kind ≠ k → f d = none) (ds : List Declaration) :
    ds.filterMap f = (ds.filter fun d => d.kind = k).filterMap f := by
  induction ds with
  | nil => rfl
  | cons d ds ih =>
    by_cases hd : d.kind = k
    · rw [List.filter_cons_of_pos (by simpa using hd), List.filterMap_cons, List.filterMap_cons, ih]
    · rw [List.filter_cons_of_neg (by simpa using hd), List.filterMap_cons_none (hf d hd), ih]

theorem SameKinds.filterMap_eq {α : Type} {ds es : List Declaration}
    (h : SameKinds Declaration.kind ds es) {f : Declaration → Option α} (k : Declaration.Kind)
    (hf : ∀ d, d.kind ≠ k → f d = none) : ds.filterMap f = es.filterMap f := by
  rw [filterMap_of_kind hf, h k, ← filterMap_of_kind hf]

/-- **The parser makes the same revision** of the same declarations of each kind. -/
theorem Block.revision_congr {ds es : List Declaration} (h : SameKinds Declaration.kind ds es)
    (version : UInt64) (leftover : List AnnotationNode) (interface : InterfaceNode) :
    (Block.mk version ds leftover).revision interface
      = (Block.mk version es leftover).revision interface := by
  have hbitfields : ds.filterMap Declaration.bitfield? = es.filterMap Declaration.bitfield? :=
    h.filterMap_eq .bitfield fun d hd => by cases d <;> first | rfl | exact absurd rfl hd
  have henums : ds.filterMap Declaration.enum? = es.filterMap Declaration.enum? :=
    h.filterMap_eq .enum fun d hd => by cases d <;> first | rfl | exact absurd rfl hd
  have hstructs : ds.filterMap Declaration.struct? = es.filterMap Declaration.struct? :=
    h.filterMap_eq .struct fun d hd => by cases d <;> first | rfl | exact absurd rfl hd
  have hfunctions : ds.filterMap Declaration.function? = es.filterMap Declaration.function? :=
    h.filterMap_eq .function fun d hd => by cases d <;> first | rfl | exact absurd rfl hd
  rw [Block.revision, Block.revision, Revision.foldl_add, Revision.foldl_add, hbitfields, henums,
    hstructs, hfunctions]

/-! ### Parts of a tree -/

/-- An interface up to the declarations of one of its blocks. -/
def openTree : Lang Lexeme (Tree × UInt64) := do
  let annotations ← annotations
  token .kwdInterface
  let name ← identifier
  token (op '\x7b')
  let blocks ← blocks
  token .kwdAbirevision
  let version ← number
  token (op '\x7b')
  return ({ name, annotations, blocks }, version)

/-- An interface from behind the declarations of one of its blocks. -/
def closeTree : Lang Lexeme (List AnnotationNode × List Block) := do
  let leftover ← annotations
  token (op '\x7d')
  let blocks ← blocks
  token (op '\x7d')
  return (leftover, blocks)

theorem openTree_iff_parts {ts : List Lexeme} {t : Tree} {version : UInt64} :
    openTree ts (t, version) ↔ ∃ xs ys zs, ts = xs ++ (ys ++ zs) ∧
      heading xs (t.annotations, t.name) ∧ blocks ys t.blocks ∧ revisionHeader zs version := by
  have heq : openTree = (do
      let (annotations, name) ← heading
      let blocks ← blocks
      let version ← revisionHeader
      return ({ name, annotations, blocks }, version)) := by
    simp only [openTree, heading, revisionHeader, bind_assoc, pure_bind]
  rw [heq]
  constructor
  · rintro ⟨⟨as, name⟩, xs, _, rfl, hxs, bs, ys, _, rfl, hys, _, zs, _, rfl, hzs, rfl, htree⟩
    obtain ⟨rfl, rfl⟩ := Prod.mk.inj htree
    exact ⟨xs, ys, zs, by rw [List.append_nil], hxs, hys, hzs⟩
  · rintro ⟨xs, ys, zs, rfl, hxs, hys, hzs⟩
    exact ⟨_, xs, _, rfl, hxs, _, ys, _, rfl, hys, _, zs, [], (List.append_nil zs).symm, hzs,
      rfl, rfl⟩

theorem tree_of_parts {us xs vs : List Lexeme} {t : Tree} {version : UInt64}
    {ds : List Declaration} {leftover : List AnnotationNode} {bs : List Block}
    (hus : openTree us (t, version)) (hxs : declarations xs ds)
    (hvs : closeTree vs (leftover, bs)) :
    tree (us ++ (xs ++ vs))
      { t with blocks := t.blocks ++ { version, declarations := ds, leftover } :: bs } := by
  obtain ⟨us₁, us₂, us₃, rfl, hheading, hblocks, hheader⟩ := openTree_iff_parts.1 hus
  obtain ⟨_, vs₁, _, rfl, hleftover, _, vs₂, _, rfl, hbrace, _, vs₃, _, rfl, hrest, _, vs₄, _, rfl,
    hclose, rfl, heq⟩ := hvs
  obtain ⟨rfl, rfl⟩ := Prod.mk.inj heq
  have hblock : block (us₃ ++ ((xs ++ vs₁) ++ vs₂)) { version, declarations := ds, leftover } :=
    block_iff_parts.2 ⟨_, us₃, xs, vs₁, vs₂, rfl, hheader, hxs, hleftover, hbrace⟩
  have hblocks' : blocks (us₂ ++ ((us₃ ++ ((xs ++ vs₁) ++ vs₂)) ++ vs₃))
      (t.blocks ++ { version, declarations := ds, leftover } :: bs) :=
    Lang.iterate_collect_append hblocks (Lang.iterate_collect_cons hblock hrest)
  refine tree_iff_parts.2 ⟨_, us₁, _, vs₄, ?_, hheading, hblocks', hclose⟩
  simp only [List.append_assoc, List.append_nil]

/-- The annotations of a tree can be replaced. -/
theorem exists_annotations_of_tree {ts : List Lexeme} {t : Tree} (h : tree ts t) :
    ∃ xs ys, ts = xs ++ ys ∧ annotations xs t.annotations ∧
      (∃ k ∈ ys.head?, k.1 = .kwdInterface) ∧
      ∀ zs as, annotations zs as → tree (zs ++ ys) { t with annotations := as } := by
  obtain ⟨u, us, vs, ws, rfl, hheading, hblocks, hclose⟩ := tree_iff_parts.1 h
  obtain ⟨as, xs, _, rfl, has, _, _, rest, rfl, hkeyword, hname⟩ := hheading
  obtain ⟨k, rfl, hk⟩ := token_iff.1 hkeyword
  obtain ⟨name, xs₃, _, rfl, h₃, _, xs₄, _, rfl, h₄, rfl, heq⟩ := hname
  obtain ⟨rfl, rfl⟩ := Prod.mk.inj heq
  refine ⟨xs, [k] ++ (xs₃ ++ (xs₄ ++ [])) ++ (vs ++ ws), List.append_assoc .., has,
    ⟨k, rfl, hk⟩, ?_⟩
  intro zs bs hzs
  have hheading : heading (zs ++ ([k] ++ (xs₃ ++ (xs₄ ++ [])))) (bs, t.name) :=
    ⟨bs, zs, _, rfl, hzs, _, _, _, rfl, hkeyword, _, xs₃, _, rfl, h₃, _, xs₄, _, rfl, h₄, rfl, rfl⟩
  exact tree_iff_parts.2
    ⟨u, _, vs, ws, (List.append_assoc ..).symm, hheading, hblocks, hclose⟩

end Syntax

/-! ### Changes of the layout -/

/-- One change of the layout of a source: a gap behind a token, other places for the identity among
the annotations of the interface, or another way to interleave the declarations of a block. -/
inductive Relaid : Bytes → Bytes → Prop
  | gap {before gap after : Bytes} (htoken : AfterToken (before ++ after) after)
      (hgap : IsGap gap) : Relaid (before ++ after) (before ++ (gap ++ after))
  | identity {source source' : Bytes} {ps qs : List (List Lexeme × AnnotationNode)}
      {us : List Lexeme} (hps : ∀ p ∈ ps, Syntax.annotation p.1 p.2) (hperm : ps.Perm qs)
      (hothers : ps.filter (fun p => ¬ p.2.IsIdentity) = qs.filter fun q => ¬ q.2.IsIdentity)
      (hus : ∃ t ∈ us.head?, t.1 = .kwdInterface)
      (hsource : lexemes source = ps.flatMap Prod.fst ++ us)
      (hsource' : lexemes source' = qs.flatMap Prod.fst ++ us) : Relaid source source'
  | declarations {source source' : Bytes} {ps qs : List (List Lexeme × Declaration)}
      {us vs ws : List Lexeme} (hus : ∃ x, Syntax.openTree us x)
      (hps : ∀ p ∈ ps, Syntax.declaration p.1 p.2)
      (hkinds : Syntax.SameKinds (fun p : List Lexeme × Declaration => p.2.kind) ps qs)
      (hvs : ∃ y, Syntax.closeTree vs y)
      (hsource : lexemes source = us ++ (ps.flatMap Prod.fst ++ (vs ++ ws)))
      (hsource' : lexemes source' = us ++ (qs.flatMap Prod.fst ++ (vs ++ ws))) :
      Relaid source source'

variable {firstAbirevision : UInt64} {firstFuncid : UInt32}

/-- The last token of an interface is no string. -/
theorem prefix_of_interfaceDecl {ts xs : List Lexeme} {t : Lexeme} {I : InterfaceNode}
    (h : Syntax.interfaceDecl firstAbirevision firstFuncid ts I) (ht : t.1 = .string)
    (hts : ts <+: xs ++ [t]) : ts <+: xs := by
  rcases List.prefix_concat_iff.1 hts with hts | hts
  · obtain ⟨_, _, _, us, vs, _, rfl, -, -, hclose, -⟩ := Syntax.interfaceDecl_iff_parts.1 h
    obtain ⟨brace, rfl, hbrace⟩ := Syntax.token_iff.1 hclose
    rw [← List.append_assoc] at hts
    have hlast : brace = t := by
      have hsingle := (List.append_inj' hts rfl).2
      simpa using hsingle
    rw [hlast, ht] at hbrace
    exact absurd hbrace (by decide)
  · exact hts

/-- A gap behind a token does not change what the parser makes of a source. -/
theorem parse_gap {before gap after : Bytes} {I : InterfaceNode}
    (htoken : AfterToken (before ++ after) after) (hgap : IsGap gap)
    (h : parse (before ++ after) firstAbirevision firstFuncid = .ok (some I)) :
    parse (before ++ (gap ++ after)) firstAbirevision firstFuncid = .ok (some I) := by
  obtain ⟨ts, hts, hdecl⟩ := parse_eq_some_iff.1 h
  obtain ⟨p, xs, t, us, -, hp, hlexemes, hnew, hends⟩ := lexemes_insertGap htoken hgap
  obtain rfl := List.append_cancel_right hp
  refine parse_eq_some_iff.2 ⟨ts, ?_, hdecl⟩
  rw [hlexemes] at hts
  rw [hnew]
  by_cases hclosed : Ends t after
  · rw [hends hclosed]
    exact hts
  · -- only the text behind the interface can end in an open string
    obtain ⟨hstring, hnil⟩ : t.1 = .string ∧ after = [] := by simpa [Ends] using hclosed
    rw [hnil, lexemes_nil] at hts
    exact (prefix_of_interfaceDecl hdecl hstring hts).trans (List.prefix_append xs us)

/-- The annotations before the keyword `interface` are the only ones there. -/
theorem annotations_unique {source : Bytes} {xs ys us vs : List Lexeme}
    {as bs : List AnnotationNode} (hxs : lexemes source = xs ++ us) (has : Syntax.annotations xs as)
    (hus : ∃ t ∈ us.head?, t.1 = .kwdInterface) (hys : lexemes source = ys ++ vs)
    (hbs : Syntax.annotations ys bs) (hvs : ∃ t ∈ vs.head?, t.1 = .kwdInterface) :
    as = bs ∧ xs = ys := by
  -- the parser decides the sentence with the keyword behind it
  have hrec : Decides (do
      let annotations ← parseAnnotations
      consume .kwdInterface
      return annotations) (do
      let annotations ← Syntax.annotations
      Syntax.token .kwdInterface
      return annotations) := by
    refine decides_annotations (fun annotations => ?_) fun annotations => ?_
    · exact (decides_consume (by decide)).bind fun _ => .pure _
    · exact Syntax.starts_ne ((Syntax.starts_token _).bind _) (by decide)
  have hsentence {xs us : List Lexeme} {as : List AnnotationNode} (hxs : lexemes source = xs ++ us)
      (has : Syntax.annotations xs as) (hus : ∃ t ∈ us.head?, t.1 = .kwdInterface) :
      ∃ t us', stream.ahead (start source) = (xs ++ [t]) ++ us' ∧ (do
        let annotations ← Syntax.annotations
        Syntax.token .kwdInterface
        return annotations : Lang Lexeme (List AnnotationNode)) (xs ++ [t]) as := by
    obtain ⟨t, hhead, ht⟩ := hus
    have hcons : us = t :: us.tail := List.eq_cons_of_mem_head? hhead
    refine ⟨t, us.tail, ?_, as, xs, [t], rfl, has, (), [t], [], rfl, ⟨t, rfl, if_pos ht⟩, rfl, rfl⟩
    rw [List.append_assoc, List.singleton_append, ← hcons, ← hxs]
    exact ahead_start source
  obtain ⟨t, us', hahead, has⟩ := hsentence hxs has hus
  obtain ⟨u, vs', hahead', hbs⟩ := hsentence hys hbs hvs
  obtain ⟨heq, hts⟩ := (hrec _ (valid_start source)).unique (valid_start source) hahead has
    hahead' hbs
  exact ⟨heq, (List.append_inj' hts rfl).1⟩

/-- The parser keeps the annotations of the interface as they are. -/
theorem Syntax.Tree.interface_withAnnotations (t : Syntax.Tree) (as : List AnnotationNode)
    (firstFuncid : UInt32) :
    { t with annotations := as }.interface firstFuncid
      = { t.interface firstFuncid with annotations := as } := by
  have hfold (bs : List Syntax.Block) (interface : InterfaceNode) :
      bs.foldl Syntax.Block.elaborate { interface with annotations := as }
        = { bs.foldl Syntax.Block.elaborate interface with annotations := as } := by
    induction bs generalizing interface with
    | nil => rfl
    | cons b bs ih =>
      have helaborate : b.elaborate { interface with annotations := as }
          = { b.elaborate interface with annotations := as } := by
        rw [Syntax.Block.elaborate, Syntax.Block.elaborate, Syntax.Block.revision,
          Syntax.Block.revision, Revision.foldl_add, Revision.foldl_add]
        rfl
      rw [List.foldl_cons, List.foldl_cons, helaborate, ih]
  exact hfold t.blocks
    { name := t.name, annotations := t.annotations, currentFuncid := firstFuncid }

/-- With the identity in other places, the parser makes the same interface with the annotations in
another order. -/
theorem parse_identity {source source' : Bytes} {ps qs : List (List Lexeme × AnnotationNode)}
    {us : List Lexeme} (hps : ∀ p ∈ ps, Syntax.annotation p.1 p.2) (hperm : ps.Perm qs)
    (hus : ∃ t ∈ us.head?, t.1 = .kwdInterface)
    (hsource : lexemes source = ps.flatMap Prod.fst ++ us)
    (hsource' : lexemes source' = qs.flatMap Prod.fst ++ us) {I : InterfaceNode}
    (h : parse source firstAbirevision firstFuncid = .ok (some I)) :
    I = { I with annotations := ps.map Prod.snd } ∧ parse source' firstAbirevision firstFuncid
      = .ok (some { I with annotations := qs.map Prod.snd }) := by
  obtain ⟨ts, ⟨ws, hts⟩, hdecl⟩ := parse_eq_some_iff.1 h
  obtain ⟨t, ht, hversions, rfl⟩ := Syntax.interfaceDecl_iff_tree.1 hdecl
  obtain ⟨xs, ys, rfl, has, hys, hreplace⟩ := Syntax.exists_annotations_of_tree ht
  have hannotations {ps : List (List Lexeme × AnnotationNode)}
      (hps : ∀ p ∈ ps, Syntax.annotation p.1 p.2) :
      Syntax.annotations (ps.flatMap Prod.fst) (ps.map Prod.snd) :=
    Lang.iterate_collect_iff.2 ⟨ps, hps, rfl, rfl⟩
  have hqs : ∀ q ∈ qs, Syntax.annotation q.1 q.2 := fun q hq => hps q (hperm.mem_iff.2 hq)
  rw [List.append_assoc] at hts
  have hys' : ∃ k ∈ (ys ++ ws).head?, k.1 = .kwdInterface := by
    obtain ⟨k, hhead, hk⟩ := hys
    exact ⟨k, List.mem_head?_append_of_mem_head? hhead, hk⟩
  -- the annotations of the text are those of the pieces
  obtain ⟨has', rfl⟩ := annotations_unique hts.symm has hys' hsource (hannotations hps) hus
  obtain rfl := List.append_cancel_left (hts.trans hsource)
  refine ⟨?_, parse_eq_some_iff.2 ⟨qs.flatMap Prod.fst ++ ys, ⟨ws, ?_⟩,
    Syntax.interfaceDecl_iff_tree.2 ⟨_, hreplace _ _ (hannotations hqs), hversions, ?_⟩⟩⟩
  · rw [← has']
    exact t.interface_withAnnotations t.annotations firstFuncid
  · rw [hsource', List.append_assoc]
  · exact (t.interface_withAnnotations (qs.map Prod.snd) firstFuncid).symm

/-- With the declarations of a block interleaved in another way, the parser makes the same
interface. -/
theorem parse_declarations {source source' : Bytes} {ps qs : List (List Lexeme × Declaration)}
    {us vs ws : List Lexeme} (hus : ∃ x, Syntax.openTree us x)
    (hps : ∀ p ∈ ps, Syntax.declaration p.1 p.2)
    (hkinds : Syntax.SameKinds (fun p : List Lexeme × Declaration => p.2.kind) ps qs)
    (hvs : ∃ y, Syntax.closeTree vs y)
    (hsource : lexemes source = us ++ (ps.flatMap Prod.fst ++ (vs ++ ws)))
    (hsource' : lexemes source' = us ++ (qs.flatMap Prod.fst ++ (vs ++ ws))) {I : InterfaceNode}
    (h : parse source firstAbirevision firstFuncid = .ok (some I)) :
    parse source' firstAbirevision firstFuncid = .ok (some I) := by
  obtain ⟨⟨t, version⟩, hus⟩ := hus
  obtain ⟨⟨leftover, bs⟩, hvs⟩ := hvs
  have hqs : ∀ q ∈ qs, Syntax.declaration q.1 q.2 := by
    intro q hq
    have hmem : q ∈ ps.filter fun p => p.2.kind = q.2.kind := by
      rw [hkinds q.2.kind]
      exact List.mem_filter.2 ⟨hq, by simp⟩
    exact hps q (List.mem_filter.1 hmem).1
  have hkinds' : Syntax.SameKinds Declaration.kind (ps.map Prod.snd) (qs.map Prod.snd) := by
    intro k
    rw [List.filter_map, List.filter_map]
    exact congrArg _ (hkinds k)
  have htree {ps : List (List Lexeme × Declaration)} (hps : ∀ p ∈ ps, Syntax.declaration p.1 p.2) :=
    have hds : Syntax.declarations (ps.flatMap Prod.fst) (ps.map Prod.snd) :=
      Lang.iterate_collect_iff.2 ⟨ps, hps, rfl, rfl⟩
    Syntax.tree_of_parts hus hds hvs
  obtain ⟨ts, hts, hdecl⟩ := parse_eq_some_iff.1 h
  obtain ⟨u, hu, hversions, rfl⟩ := Syntax.interfaceDecl_iff_tree.1 hdecl
  have hpre : us ++ (ps.flatMap Prod.fst ++ vs) <+: lexemes source :=
    ⟨ws, by rw [hsource]; simp only [List.append_assoc]⟩
  -- the text begins with one tree only
  have hsame := (tree_unique hts hu hpre (htree hps) firstFuncid).1
  refine parse_eq_some_iff.2 ⟨us ++ (qs.flatMap Prod.fst ++ vs), ⟨ws, ?_⟩,
    Syntax.interfaceDecl_iff_tree.2 ⟨_, htree hqs, ?_, ?_⟩⟩
  · rw [hsource']
    simp only [List.append_assoc]
  · rw [← Syntax.Tree.versions_interface u firstFuncid, hsame,
      Syntax.Tree.versions_interface] at hversions
    simpa using hversions
  · rw [hsame, Syntax.Tree.interface, Syntax.Tree.interface, List.foldl_append, List.foldl_append,
      List.foldl_cons, List.foldl_cons, Syntax.Block.elaborate, Syntax.Block.elaborate,
      Syntax.Block.revision_congr hkinds']

/-! ### The artifact -/

/-- A change of the layout does not change the interface that is compiled. -/
theorem parseInterfaceFile_relaid {source source' : Bytes} {interface : InterfaceNode}
    (h : Relaid source source')
    (hfile : parseInterfaceFile source firstAbirevision firstFuncid = .ok (some interface)) :
    parseInterfaceFile source' firstAbirevision firstFuncid = .ok (some interface) := by
  obtain ⟨parsed, hparse, hnormalize⟩ := parseInterfaceFile_eq_some_iff.1 hfile
  rw [parseInterfaceFile_eq_some_iff]
  cases h with
  | gap htoken hgap => exact ⟨parsed, parse_gap htoken hgap hparse, hnormalize⟩
  | @identity _ _ ps qs us hps hperm hothers hus hsource hsource' =>
    obtain ⟨hparsed, hparse'⟩ := parse_identity hps hperm hus hsource hsource' hparse
    rw [hparsed] at hnormalize
    have hothers' : Metadata.others (ps.map Prod.snd) = Metadata.others (qs.map Prod.snd) := by
      rw [Metadata.others, Metadata.others, List.filter_map, List.filter_map]
      exact congrArg _ hothers
    exact ⟨_, hparse', normalizeInterfaceMetadata_rearrange (hperm.map _) hothers' hnormalize⟩
  | declarations hus hps hkinds hvs hsource hsource' =>
    exact ⟨parsed, parse_declarations hus hps hkinds hvs hsource hsource' hparse, hnormalize⟩

theorem compile_of_relaid {base : Option Bytes} {source source' artifact : Bytes}
    (h : Relaid source source') (hcompile : compile base source = .ok (some artifact)) :
    compile base source' = .ok (some artifact) := by
  cases base with
  | none =>
    obtain ⟨interface, hfile, hwrite⟩ := compile_none_eq_some_iff.1 hcompile
    exact compile_none_eq_some_iff.2 ⟨interface, parseInterfaceFile_relaid h hfile, hwrite⟩
  | some base =>
    obtain ⟨interface, extension, hread, hfile, hvalid, hwrite⟩ :=
      compile_some_eq_some_iff.1 hcompile
    exact compile_some_eq_some_iff.2
      ⟨interface, extension, hread, parseInterfaceFile_relaid h hfile, hvalid, hwrite⟩

/-- **The artifact does not depend on the layout of the source**: whatever changes of the layout are
made to a source that compiles, with or without a base, the same bytes are written. -/
theorem compile_relaid {base : Option Bytes} {source source' artifact : Bytes}
    (hcompile : compile base source = .ok (some artifact))
    (h : Relation.ReflTransGen Relaid source source') :
    compile base source' = .ok (some artifact) := by
  induction h with
  | refl => exact hcompile
  | tail _ hstep ih => exact compile_of_relaid hstep ih

/-! ### Printed sources -/

section Printed

open Syntax

/-- The lexemes of a text, with what they denote. -/
def pieceOf {α : Type} (print : α → Bytes) (denoted : α → α) (x : α) : List Lexeme × α :=
  (lexemes (print x), denoted x)

/-- Texts printed one by one have the lexemes of their pieces. -/
theorem lexemes_flatMap {α : Type} {print : α → Bytes} {L : Lang Lexeme α} (denoted : α → α)
    {xs : List α} (h : ∀ x ∈ xs, PrintsAs (print x) L (denoted x)) (r : Bytes) :
    lexemes (xs.flatMap print ++ r)
      = (xs.map (pieceOf print denoted)).flatMap Prod.fst ++ lexemes r := by
  induction xs with
  | nil => rfl
  | cons x xs ih =>
    rw [List.forall_mem_cons] at h
    obtain ⟨-, hlexemes⟩ := h.1.self lexemes_nil
    rw [List.flatMap_cons, List.append_assoc, hlexemes, ih h.2, List.map_cons, List.flatMap_cons,
      List.append_assoc]
    rfl

theorem pieces_sentences {α : Type} {print : α → Bytes} {L : Lang Lexeme α} {denoted : α → α}
    {xs : List α} (h : ∀ x ∈ xs, PrintsAs (print x) L (denoted x)) :
    ∀ p ∈ xs.map (pieceOf print denoted), L p.1 p.2 := by
  rw [List.forall_mem_map]
  exact fun x hx => ((h x hx).self lexemes_nil).1

/-- A source from the keyword `interface` on. -/
def BeginsInterface (rest : Bytes) : Prop :=
  ∃ t ∈ (lexemes rest).head?, t.1 = .kwdInterface

theorem beginsInterface_keyword (rest : Bytes) : BeginsInterface (ascii "interface " ++ rest) := by
  have hkeyword : PrintsAs (ascii "interface ") (token .kwdInterface) () :=
    prints_keywordBlank (ascii "interface") (by simp [Lexer.keywords])
  obtain ⟨⟨k, hk, hvalue⟩, hlexemes⟩ := hkeyword.self lexemes_nil
  have hk' : k.1 = .kwdInterface := token_singleton_iff.1 ⟨k, rfl, hvalue⟩
  rw [BeginsInterface, hlexemes, hk]
  exact ⟨k, rfl, hk'⟩

/-- The identity can be printed at other places among the annotations. -/
theorem relaid_identity {nodes nodes' : List AnnotationNode} (h : ∀ node ∈ nodes, node.Printable)
    (hperm : nodes.Perm nodes') (hothers : nodes.filter (fun node => ¬node.IsIdentity)
      = nodes'.filter fun node => ¬node.IsIdentity) {rest : Bytes} (hrest : BeginsInterface rest) :
    Relaid (decompileAnnotations nodes 0 ++ rest) (decompileAnnotations nodes' 0 ++ rest) := by
  have hprints {nodes : List AnnotationNode} (h : ∀ node ∈ nodes, node.Printable) :
      ∀ node ∈ nodes, PrintsAs (decompileAnnotationNode node ++ ascii "\n") annotation node :=
    fun node hnode => (prints_annotationNode (h node hnode)).skipAfter
      (lexemes_blanks blank_newline) fun _ _ => trivial
  have hlines (nodes : List AnnotationNode) : decompileAnnotations nodes 0
      = nodes.flatMap fun node => decompileAnnotationNode node ++ ascii "\n" := by
    simp [decompileAnnotations, writeIndent]
  have h' : ∀ node ∈ nodes', node.Printable := fun node hnode => h node (hperm.mem_iff.2 hnode)
  rw [hlines, hlines]
  refine .identity (pieces_sentences (hprints h)) (hperm.map _) ?_ hrest
    (lexemes_flatMap id (hprints h) rest) (lexemes_flatMap id (hprints h') rest)
  rw [List.filter_map, List.filter_map]
  exact congrArg _ hothers

/-- The text of a tree up to the declarations of a block behind its own. -/
def openText (t : Tree) (version : UInt64) : Bytes :=
  decompileAnnotations t.annotations 0 ++ (ascii "interface " ++ (t.name ++ (ascii " \x7b\n" ++
    (t.blocks.flatMap Block.print ++ (writeIndent 1 ++ (ascii "abirevision " ++
      (Decimal.numeral version.toNat ++ ascii " \x7b\n")))))))

theorem prints_openText {t : Tree} (h : t.Printable) (version : UInt64) :
    PrintsAs (openText t version) openTree (t, version) := by
  have hinterface : PrintsAs (ascii "interface ") (token .kwdInterface) () :=
    prints_keywordBlank (ascii "interface") (by simp [Lexer.keywords])
  have habirevision : PrintsAs (ascii "abirevision ") (token .kwdAbirevision) () :=
    prints_keywordBlank (ascii "abirevision") (by simp [Lexer.keywords])
  have hversion : PrintsAs (Decimal.numeral version.toNat ++ ascii " \x7b\n") (do
      let version ← number
      token (op '\x7b')
      return (t, version)) (t, version) :=
    (prints_number version).bind (prints_open.thenReturn fun _ => _)
      fun r _ => endsWord_cons (by decide) _
  refine (prints_annotations h.annotations 0).andThen (hinterface.andThen
    ((prints_identifier h.name).bind (prints_open.andThen ((prints_blocks h.blocks).andThen
      (Prints.skip (lexemes_writeIndent 1) (habirevision.andThen hversion)))) ?_))
  exact fun r _ => endsWord_cons (by decide) _

/-- The text of a tree from behind the declarations of a block. -/
def closeText (leftover : List AnnotationNode) (bs : List Block) : Bytes :=
  decompileAnnotations leftover 2 ++ (writeIndent 1 ++ ascii "\x7d\n" ++
    (bs.flatMap Block.print ++ ascii "\x7d\n"))

theorem prints_closeText {leftover : List AnnotationNode} (hleftover : ∀ node ∈ leftover,
    node.Printable) {bs : List Block} (hbs : ∀ b ∈ bs, b.Printable) :
    PrintsAs (closeText leftover bs) closeTree (leftover, bs) := by
  have hclose : PrintsAs (writeIndent 1 ++ ascii "\x7d\n") (token (op '\x7d')) () :=
    prints_closeBrace.skip (lexemes_writeIndent 1)
  exact (prints_annotations hleftover 2).andThen (hclose.andThen
    ((prints_blocks hbs).andThen (prints_closeBrace.thenReturn fun _ => _)))

/-- A printed tree around the declarations of a block. -/
theorem print_eq_openText (t : Tree) (version : UInt64) (ds : List Declaration)
    (leftover : List AnnotationNode) (bs : List Block) :
    Tree.print { t with blocks := t.blocks ++ ⟨version, ds, leftover⟩ :: bs }
      = openText t version ++ (ds.flatMap Declaration.print ++ closeText leftover bs) := by
  simp only [Tree.print, Block.print, openText, closeText, List.flatMap_append, List.flatMap_cons,
    List.append_assoc]

/-- The declarations of a block can be printed in another order. -/
theorem relaid_print {t : Tree} (h : t.Printable) (version : UInt64) {ds es : List Declaration}
    (hds : ∀ d ∈ ds, d.Printable) (hes : ∀ d ∈ es, d.Printable)
    (hkinds : SameKinds Declaration.kind ds es) {leftover : List AnnotationNode}
    (hleftover : ∀ node ∈ leftover, node.Printable) {bs : List Block}
    (hbs : ∀ b ∈ bs, b.Printable) :
    Relaid (Tree.print { t with blocks := t.blocks ++ ⟨version, ds, leftover⟩ :: bs })
      (Tree.print { t with blocks := t.blocks ++ ⟨version, es, leftover⟩ :: bs }) := by
  obtain ⟨hopen, hopenText⟩ := (prints_openText h version).self lexemes_nil
  obtain ⟨hclose, hcloseText⟩ := (prints_closeText hleftover hbs).self lexemes_nil
  have hprints {ds : List Declaration} (hds : ∀ d ∈ ds, d.Printable) :
      ∀ d ∈ ds, PrintsAs d.print declaration d.bare :=
    fun d hd => prints_annotatedDeclaration (hds d hd)
  have hlexemes {ds : List Declaration} (hds : ∀ d ∈ ds, d.Printable) :
      lexemes (Tree.print { t with blocks := t.blocks ++ ⟨version, ds, leftover⟩ :: bs })
        = lexemes (openText t version) ++
          ((ds.map (pieceOf Declaration.print Declaration.bare)).flatMap Prod.fst ++
            (lexemes (closeText leftover bs) ++ [])) := by
    rw [print_eq_openText, hopenText, lexemes_flatMap Declaration.bare (hprints hds),
      List.append_nil]
  refine .declarations ⟨_, hopen⟩ (pieces_sentences (hprints hds)) (fun k => ?_) ⟨_, hclose⟩
    (hlexemes hds) (hlexemes hes)
  have hkind (d : Declaration) : d.bare.kind = d.kind := by
    cases d <;> rfl
  rw [List.filter_map, List.filter_map]
  simp only [Function.comp_def, pieceOf, hkind]
  rw [hkinds k]

end Printed

/-- A comment behind the first character of a source that begins with `@`. -/
theorem relaid_comment (r : Bytes) :
    Relaid (chr '@' :: r) (chr '@' :: (ascii "/*" ++ (ascii " moved " ++ ascii "*/") ++ r)) := by
  have hslash : chr '/' ∉ ascii " moved " := by decide
  have hgap : IsGap (ascii "/*" ++ (ascii " moved " ++ ascii "*/")) :=
    .blockComment fun hclosed => hslash (hclosed.subset (by decide))
  have htoken : AfterToken (chr '@' :: r) r := by
    have h := AfterToken.first (skipGap_stop (c := chr '@') (by decide) (by decide) r)
    rwa [scan_operator (by decide)] at h
  exact @Relaid.gap [chr '@'] _ r htoken hgap

/-! ### A source in another layout -/

/-- `struct S { u8 x; };` -/
def layoutStruct : StructNode :=
  { name := ascii "S", annotations := [], fields := [⟨.named false 0 (ascii "u8"), ascii "x"⟩] }

/-- `function f(in e x);` -/
def layoutFunction : FunctionNode :=
  { name := ascii "f", annotations := [], id := 0
    parameters := [⟨.IN, .named false 0 (ascii "e"), ascii "x", []⟩] }

/-- `enum<u8> e { m = 1 };` -/
def layoutEnum : EnumNode :=
  { name := ascii "e", baseType := .named false 0 (ascii "u8"), annotations := []
    members := [⟨ascii "m", 1, []⟩] }

/-- The three of them in an order. -/
def layoutDeclarations : List Declaration :=
  [.struct layoutStruct, .function layoutFunction, .enum layoutEnum]

theorem printable_layoutDeclarations : ∀ d ∈ layoutDeclarations, d.Printable := by
  decide +kernel

/-- The declarations in another order, the identity the other way round and a comment. -/
theorem compile_relaid_layoutSource :
    ∃ artifact r, Syntax.Tree.print { sampleTree layoutDeclarations.reverse with
        annotations := (sampleInterface []).identityAnnotations.reverse } = chr '@' :: r ∧
      compile none (sampleTree layoutDeclarations).print = .ok (some artifact) ∧
      compile none (chr '@' :: (ascii "/*" ++ (ascii " moved " ++ ascii "*/") ++ r))
        = .ok (some artifact) := by
  have hbare : ∀ d ∈ layoutDeclarations, d.bare = d := by
    simp only [layoutDeclarations, List.forall_mem_cons]
    exact ⟨rfl, rfl, rfl, List.forall_mem_nil _⟩
  have htree := printable_sampleTree fun d hd => ⟨printable_layoutDeclarations d hd, hbare d hd⟩
  obtain ⟨artifact, hcompile⟩ := compile_sampleTree
    (fun d hd => ⟨printable_layoutDeclarations d hd, hbare d hd⟩) (by decide)
  have hheading : Syntax.Tree.Printable { sampleTree [] with blocks := [] } :=
    ⟨htree.name, htree.annotations, List.forall_mem_nil _⟩
  have hkinds : Syntax.SameKinds Declaration.kind layoutDeclarations
      layoutDeclarations.reverse := by
    intro k
    cases k <;> rfl
  have hmoved : Relaid (sampleTree layoutDeclarations).print
      (sampleTree layoutDeclarations.reverse).print :=
    relaid_print hheading 0 printable_layoutDeclarations
      (fun d hd => printable_layoutDeclarations d (List.mem_reverse.1 hd)) hkinds
      (List.forall_mem_nil _) (List.forall_mem_nil _)
  have hreversed : Relaid (sampleTree layoutDeclarations.reverse).print
      (Syntax.Tree.print { sampleTree layoutDeclarations.reverse with
        annotations := (sampleInterface []).identityAnnotations.reverse }) :=
    relaid_identity htree.annotations (List.reverse_perm _).symm rfl (beginsInterface_keyword _)
  exact ⟨artifact, _, rfl, hcompile,
    compile_relaid hcompile (.tail (.tail (.single hmoved) hreversed) (relaid_comment _))⟩

end Sidlc
