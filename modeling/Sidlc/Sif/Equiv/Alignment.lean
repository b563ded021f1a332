import Sidlc.Sif.Calls
import Sidlc.Sif.Equiv.RoundTrip

/-!
# Where the strings of an artifact begin

Words, hashes and padded strings keep the offset a multiple of four; the one-byte tags of
expressions, types and parameters do not, and nothing is padded behind them. So the strings of an
artifact are aligned exactly when, in the order of the format, the tags before every string are a
multiple of four (`stringsAligned_iff`).
-/

namespace Sidlc

open CellFormat BinaryWriter StateExcept

/-! ### Tags and strings -/

/-- What a record is to the alignment; records whose size is a multiple of four are left out. -/
inductive Mark where
  | tag
  | string
  deriving DecidableEq

/-- Behind so many tags, the strings have multiples of four before them. -/
def TagsAligned : Nat → List Mark → Prop
  | _, [] => True
  | tags, .tag :: marks => TagsAligned (tags + 1) marks
  | tags, .string :: marks => tags % 4 = 0 ∧ TagsAligned tags marks

instance decidableTagsAligned : ∀ (tags : Nat) (marks : List Mark),
    Decidable (TagsAligned tags marks)
  | _, [] => inferInstanceAs (Decidable True)
  | tags, .tag :: marks => decidableTagsAligned (tags + 1) marks
  | tags, .string :: marks =>
    have := decidableTagsAligned tags marks
    inferInstanceAs (Decidable (_ ∧ _))

namespace ExpressionNode

/-- The kind, and the text of a literal or a name. -/
def marks : ExpressionNode → List Mark
  | .string _ => [.tag, .string]
  | .number _ => [.tag]
  | .identifier _ => [.tag, .string]

end ExpressionNode

def AnnotationNode.marks (node : AnnotationNode) : List Mark :=
  .string :: node.args.flatMap ExpressionNode.marks

def annotationsMarks (annotations : List AnnotationNode) : List Mark :=
  annotations.flatMap AnnotationNode.marks

/-- `const` and the kind at every level, and the name. -/
def TypeNode.marks : TypeNode → List Mark
  | .named _ _ _ => [.tag, .tag, .string]
  | .ptr _ _ innerType => .tag :: .tag :: innerType.marks
  | .array _ _ innerType => .tag :: .tag :: innerType.marks

/-- The direction comes first. -/
def ParameterNode.marks (node : ParameterNode) : List Mark :=
  .tag :: (annotationsMarks node.annotations ++ (node.type.marks ++ [.string]))

def FunctionNode.marks (node : FunctionNode) : List Mark :=
  .string :: (annotationsMarks node.annotations ++ node.parameters.flatMap ParameterNode.marks)

def StructFieldNode.marks (field : StructFieldNode) : List Mark :=
  field.type.marks ++ [.string]

def StructNode.marks (node : StructNode) : List Mark :=
  .string :: (annotationsMarks node.annotations ++ node.fields.flatMap StructFieldNode.marks)

def BitfieldFieldNode.marks (_field : BitfieldFieldNode) : List Mark :=
  [.string]

def BitfieldNode.marks (node : BitfieldNode) : List Mark :=
  .string :: (annotationsMarks node.annotations ++ (node.baseType.marks ++
    node.fields.flatMap BitfieldFieldNode.marks))

def EnumMemberNode.marks (member : EnumMemberNode) : List Mark :=
  .string :: annotationsMarks member.annotations

def EnumNode.marks (node : EnumNode) : List Mark :=
  .string :: (annotationsMarks node.annotations ++ (node.baseType.marks ++
    node.members.flatMap EnumMemberNode.marks))

def AbiversionNode.marks (node : AbiversionNode) : List Mark :=
  annotationsMarks node.annotations ++ (node.bitfields.flatMap BitfieldNode.marks ++
    (node.enums.flatMap EnumNode.marks ++ (node.structs.flatMap StructNode.marks ++
      node.functions.flatMap FunctionNode.marks)))

/-- The name, the UUID name and the prefix come first. -/
def InterfaceNode.identityMarks (interface : InterfaceNode) : List Mark :=
  .string :: .string :: .string :: annotationsMarks interface.annotations

/-! ### The calls of a node -/

namespace WriterCall

def mark : WriterCall → Option Mark
  | .u8 _ => some .tag
  | .string _ => some .string
  | _ => none

/-- Raw bytes come in multiples of four. -/
def Quad : WriterCall → Prop
  | .bytes data => data.length % 4 = 0
  | _ => True

end WriterCall

/-- The calls write what the writer writes, and leave the marks. -/
structure Traced (w : Writer) (calls : List WriterCall) (marks : List Mark) : Prop where
  run : writeEach WriterCall.run calls = w
  marks : calls.filterMap WriterCall.mark = marks
  quads : ∀ call ∈ calls, call.Quad

namespace Traced

variable {w w' : Writer} {calls calls' : List WriterCall} {marks marks' : List Mark}

theorem nil : Traced (.ok []) [] [] :=
  ⟨rfl, rfl, List.forall_mem_nil _⟩

theorem append (h : Traced w calls marks) (h' : Traced w' calls' marks') :
    Traced (w ++ w') (calls ++ calls') (marks ++ marks') where
  run := by rw [writeEach_append, h.run, h'.run]
  marks := by rw [List.filterMap_append, h.marks, h'.marks]
  quads := List.forall_mem_append.2 ⟨h.quads, h'.quads⟩

/-- A call and what comes after it. -/
theorem cons {c : WriterCall} (hquad : c.Quad) (h : Traced w calls marks) :
    Traced (c.run ++ w) (c :: calls) (c.mark.toList ++ marks) where
  run := by rw [writeEach, h.run]
  marks := by
    rw [← h.marks]
    cases hmark : c.mark with
    | none => rw [List.filterMap_cons_none hmark]; rfl
    | some mark => rw [List.filterMap_cons_some hmark]; rfl
  quads := List.forall_mem_cons.2 ⟨hquad, h.quads⟩

theorem single {c : WriterCall} (hquad : c.Quad) :
    Traced c.run [c] c.mark.toList := by
  have h := cons hquad nil
  rwa [append_ok_nil, List.append_nil] at h

theorem tag (value : UInt8) (h : Traced w calls marks) :
    Traced (u8 value ++ w) (.u8 value :: calls) (.tag :: marks) :=
  cons (c := .u8 value) trivial h

theorem word (value : UInt32) (h : Traced w calls marks) :
    Traced (u32 value ++ w) (.u32 value :: calls) marks :=
  cons (c := .u32 value) trivial h

theorem doubleWord (value : UInt64) (h : Traced w calls marks) :
    Traced (u64 value ++ w) (.u64 value :: calls) marks :=
  cons (c := .u64 value) trivial h

theorem raw {data : Bytes} (hdata : data.length % 4 = 0) (h : Traced w calls marks) :
    Traced (bytes data ++ w) (.bytes data :: calls) marks :=
  cons (c := .bytes data) hdata h

theorem text (value : Bytes) (h : Traced w calls marks) :
    Traced (string value ++ w) (.string value :: calls) (.string :: marks) :=
  cons (c := .string value) trivial h

theorem lastDoubleWord (value : UInt64) : Traced (u64 value) [.u64 value] [] :=
  single (c := .u64 value) trivial

theorem lastText (value : Bytes) : Traced (string value) [.string value] [.string] :=
  single (c := .string value) trivial

theorem lastRaw {data : Bytes} (hdata : data.length % 4 = 0) :
    Traced (bytes data) [.bytes data] [] :=
  single (c := .bytes data) hdata

theorem each {α : Type} {w : α → Writer} {calls : α → List WriterCall} {marks : α → List Mark}
    (h : ∀ x, Traced (w x) (calls x) (marks x)) (xs : List α) :
    Traced (writeEach w xs) (xs.flatMap calls) (xs.flatMap marks) := by
  induction xs with
  | nil => exact nil
  | cons x xs ih => exact (h x).append ih

/-- A count and the elements. -/
theorem counted {α : Type} {w : α → Writer} {calls : α → List WriterCall}
    {marks : α → List Mark} (h : ∀ x, Traced (w x) (calls x) (marks x)) (xs : List α) :
    Traced (count xs ++ writeEach w xs) (.count xs.length :: xs.flatMap calls)
      (xs.flatMap marks) :=
  cons (c := .count xs.length) trivial (each h xs)

end Traced

open Traced

theorem traced_expression (node : ExpressionNode) :
    Traced (writeExpression node) node.calls node.marks := by
  cases node with
  | string value => exact (lastText value).tag ExprKind.String
  | number value => exact (lastDoubleWord value).tag ExprKind.Number
  | identifier name => exact (lastText name).tag ExprKind.Identifier

theorem traced_annotation (node : AnnotationNode) :
    Traced (writeAnnotationNode node) node.calls node.marks :=
  (counted traced_expression node.args).text node.name

theorem traced_annotations (annotations : List AnnotationNode) :
    Traced (writeAnnotations annotations) (annotationsCalls annotations)
      (annotationsMarks annotations) :=
  counted traced_annotation annotations

theorem traced_type (node : TypeNode) : Traced (writeType node) node.calls node.marks := by
  induction node with
  | named c n name => exact ((lastText name).tag TypeKind.Named).tag _
  | ptr c n innerType ih => exact (ih.tag TypeKind.Ptr).tag _
  | array c n innerType ih => exact (ih.tag TypeKind.Array).tag _

theorem traced_parameter (node : ParameterNode) :
    Traced (writeParameter node) node.calls node.marks :=
  ((traced_annotations node.annotations).append
    ((traced_type node.type).append (lastText node.name))).tag node.direction.toByte

theorem traced_function (node : FunctionNode) :
    Traced (writeFunction node) node.calls node.marks :=
  (((traced_annotations node.annotations).append
    (counted traced_parameter node.parameters)).text node.name).word node.id

theorem traced_structField (field : StructFieldNode) :
    Traced (writeStructField field) field.calls field.marks :=
  (traced_type field.type).append (lastText field.name)

theorem traced_struct (node : StructNode) : Traced (writeStruct node) node.calls node.marks :=
  ((traced_annotations node.annotations).append
    (counted traced_structField node.fields)).text node.name

theorem traced_bitfieldField (field : BitfieldFieldNode) :
    Traced (writeBitfieldField field) field.calls field.marks :=
  (lastDoubleWord field.bits).text field.name

theorem traced_bitfield (node : BitfieldNode) :
    Traced (writeBitfield node) node.calls node.marks :=
  ((traced_annotations node.annotations).append
    ((traced_type node.baseType).append (counted traced_bitfieldField node.fields))).text node.name

theorem traced_enumMember (member : EnumMemberNode) :
    Traced (writeEnumMember member) member.calls member.marks :=
  ((traced_annotations member.annotations).doubleWord member.value).text member.name

theorem traced_enum (node : EnumNode) : Traced (writeEnum node) node.calls node.marks :=
  ((traced_annotations node.annotations).append
    ((traced_type node.baseType).append (counted traced_enumMember node.members))).text node.name

theorem traced_revisionMembers (node : AbiversionNode) :
    Traced (writeRevisionMembers node) node.memberCalls node.marks :=
  (traced_annotations node.annotations).append
    ((counted traced_bitfield node.bitfields).append ((counted traced_enum node.enums).append
      ((counted traced_struct node.structs).append (counted traced_function node.functions))))

/-! ### The calls of `sif_write` -/

theorem length_hash (hash : Hash) : hash.toList.length % 4 = 0 := by
  rw [Vector.length_toList]

theorem traced_revisionTree (node : AbiversionNode) (previousHash : Hash) :
    Traced (writeRevisionTree node previousHash) (node.calls previousHash) node.marks :=
  ((traced_revisionMembers node).raw (length_hash previousHash)).doubleWord node.version

theorem traced_revisionTrees (previousHash : Hash) (revisions : List (AbiversionNode × Hash)) :
    Traced (writeRevisionTrees previousHash revisions) (revisionTreesCalls previousHash revisions)
      (revisions.flatMap fun r => r.1.marks) := by
  induction revisions generalizing previousHash with
  | nil => exact nil
  | cons r revisions ih =>
    obtain ⟨revision, revisionHash⟩ := r
    exact (traced_revisionTree revision previousHash).append (ih revisionHash)

theorem traced_identity {interface : InterfaceNode} (huuid : interface.hasUuid = true)
    (hpre : interface.hasPrefix = true) :
    Traced (writeInterfaceIdentity interface) interface.identityCalls interface.identityMarks := by
  have hnamespace : interface.uuidNamespace.toList.length % 4 = 0 := by
    rw [Vector.length_toList]
  have h := ((((traced_annotations interface.annotations).text interface.prefixStr).text
    interface.uuidName).raw hnamespace).text interface.name
  rw [writeInterfaceIdentity, InterfaceNode.identityCalls, huuid, hpre]
  exact h

/-- **The calls write the artifact.** -/
theorem traced_artifact {interface : InterfaceNode} (huuid : interface.hasUuid = true)
    (hpre : interface.hasPrefix = true) (revisions : List AbiversionNode) (hashes : List Hash) :
    Traced (writeArtifact interface revisions hashes) (artifactCalls interface revisions hashes)
      (interface.identityMarks ++ (revisions.zip hashes).flatMap fun r => r.1.marks) := by
  have htable : Traced (writeEach (fun hash : Hash => bytes hash.toList) hashes)
      (hashes.map fun hash => .bytes hash.toList) [] := by
    have h := each (fun hash : Hash => lastRaw (length_hash hash)) hashes
    have hnone : (hashes.flatMap fun _ => ([] : List Mark)) = [] := by simp
    have hcalls : (hashes.flatMap fun hash => [WriterCall.bytes hash.toList])
        = hashes.map fun hash => .bytes hash.toList := by
      rw [List.map_eq_flatMap]
    rwa [hnone, hcalls] at h
  have hcount : Traced (count hashes ++ (bytes (hashes.headD zeroHash).toList ++
      writeEach (fun hash => bytes hash.toList) hashes)) _ [] :=
    cons (c := .count hashes.length) trivial (htable.raw (length_hash (hashes.headD zeroHash)))
  exact (((traced_identity huuid hpre).append
    (hcount.append (traced_revisionTrees zeroHash (revisions.zip hashes)))).word
      kSifFormatVersion).raw rfl

theorem length_revisionHashes {interface : InterfaceNode} {previousHash : Hash}
    {revisions : List AbiversionNode} {hashes : List Hash}
    (h : revisionHashes interface previousHash revisions = .ok hashes) :
    hashes.length = revisions.length := by
  induction revisions generalizing previousHash hashes with
  | nil =>
    rw [except_pure_eq_ok.1 h]
    rfl
  | cons revision revisions ih =>
    obtain ⟨hash, -, h⟩ := except_bind_eq_ok.1 h
    obtain ⟨rest, hrest, h⟩ := except_bind_eq_ok.1 h
    rw [except_pure_eq_ok.1 h, List.length_cons, List.length_cons, ih hrest]

/-! ### Offsets -/

theorem WriterCall.isString_iff {c : WriterCall} : c.IsString ↔ c.mark = some .string := by
  cases c <;> simp [IsString, mark]

/-- Only a tag moves the offset off the multiples of four. -/
theorem size_mod {c : WriterCall} (hquad : c.Quad) :
    c.size % 4 = if c.mark = some .tag then 1 else 0 := by
  have hword (value : UInt32) : (BinaryWriter.wordBytes 4 value.toBitVec).length = 4 := by
    simp [wordBytes]
  cases c with
  | u8 value => rfl
  | u32 value => exact congrArg (· % 4) (hword value)
  | u64 value =>
    have hlength : (BinaryWriter.wordBytes 8 value.toBitVec).length = 8 := by simp [wordBytes]
    exact congrArg (· % 4) hlength
  | bytes data => exact hquad
  | string value =>
    rw [WriterCall.size, WriterCall.output, WriterCall.run, BinaryWriter.string]
    by_cases hlong : value.length > 4294967295
    · rw [if_pos hlong]
      rfl
    · have hpadded : (4 + value.length + padding value.length) % 4 = 0 := by
        rw [padding]
        omega
      rw [if_neg hlong]
      have hlength : (BinaryWriter.wordBytes 4 (UInt32.ofNat value.length).toBitVec ++ value ++
          List.replicate (padding value.length) 0).length
            = 4 + value.length + padding value.length := by
        rw [List.length_append, List.length_append, hword, List.length_replicate]
      exact (congrArg (· % 4) hlength).trans hpadded
  | count n =>
    rw [WriterCall.size, WriterCall.output, WriterCall.run]
    by_cases hlarge : n > 4294967295
    · rw [if_pos hlarge]
      rfl
    · rw [if_neg hlarge]
      exact congrArg (· % 4) (hword _)
  | throws what => rfl

/-- The offset and the tags before it are the same modulo four. -/
theorem alignedFrom_iff {calls : List WriterCall} (hquads : ∀ call ∈ calls, call.Quad)
    {offset tags : Nat} (h : offset % 4 = tags % 4) :
    AlignedFrom offset calls ↔ TagsAligned tags (calls.filterMap WriterCall.mark) := by
  induction calls generalizing offset tags with
  | nil => exact Iff.rfl
  | cons call calls ih =>
    rw [List.forall_mem_cons] at hquads
    have hsize := size_mod hquads.1
    rw [AlignedFrom, WriterCall.isString_iff]
    cases hmark : call.mark with
    | none =>
      have hnext : (offset + call.size) % 4 = tags % 4 := by
        simp only [hmark, reduceCtorEq, if_false] at hsize
        omega
      rw [List.filterMap_cons_none hmark, ih hquads.2 hnext]
      simp
    | some mark =>
      rw [List.filterMap_cons_some hmark]
      cases mark with
      | tag =>
        have hnext : (offset + call.size) % 4 = (tags + 1) % 4 := by
          simp only [hmark, if_true] at hsize
          omega
        rw [ih hquads.2 hnext, TagsAligned]
        simp
      | string =>
        have hnext : (offset + call.size) % 4 = tags % 4 := by
          simp only [hmark, Option.some.injEq, reduceCtorEq, if_false] at hsize
          omega
        rw [ih hquads.2 hnext, TagsAligned, h]
        simp

/-- The strings that `sif_write` puts into the artifact begin at multiples of four. -/
def StringsAligned (interface : InterfaceNode) (extensions : List InterfaceNode) : Prop :=
  ∀ calls, sifCalls interface extensions = .ok calls → AlignedFrom 0 calls

/-- The tags and the strings of an artifact, in the order of the format. -/
def artifactMarks (interface : InterfaceNode) (extensions : List InterfaceNode) : List Mark :=
  interface.identityMarks ++ (allRevisions interface extensions).flatMap AbiversionNode.marks

/-- The calls are those that wrote the artifact. -/
theorem exists_sifCalls {interface : InterfaceNode} {extensions : List InterfaceNode}
    {artifact : Bytes} (h : sifWrite interface extensions = .ok artifact) :
    ∃ calls, sifCalls interface extensions = .ok calls ∧
      Traced (.ok artifact) calls (artifactMarks interface extensions) := by
  obtain ⟨hwritable, -⟩ := (sifWrite_eq_ok_iff ..).1 h
  have hnonempty : (allRevisions interface extensions).isEmpty = false := by
    simpa using hwritable.nonempty
  rw [sifWrite] at h
  simp only [hnonempty, Bool.false_eq_true, if_false] at h
  obtain ⟨hashes, hhashes, hwrite⟩ := except_bind_eq_ok.1 h
  have hcalls : sifCalls interface extensions
      = .ok (artifactCalls interface (allRevisions interface extensions) hashes) := by
    simp only [sifCalls, hnonempty, Bool.false_eq_true, if_false, hhashes]
    rfl
  have htraced := traced_artifact hwritable.hasUuid hwritable.hasPrefix
    (allRevisions interface extensions) hashes
  have hmarks : ((allRevisions interface extensions).zip hashes).flatMap (fun r => r.1.marks)
      = (allRevisions interface extensions).flatMap AbiversionNode.marks := by
    have hfst : ((allRevisions interface extensions).zip hashes).map Prod.fst
        = allRevisions interface extensions :=
      List.map_fst_zip (Nat.le_of_eq (length_revisionHashes hhashes).symm)
    conv_rhs => rw [← hfst, List.flatMap_map]
  rw [hwrite, hmarks] at htraced
  exact ⟨_, hcalls, htraced⟩

theorem stringsAligned_iff_tags {interface : InterfaceNode} {extensions : List InterfaceNode}
    {artifact : Bytes} (h : sifWrite interface extensions = .ok artifact) :
    StringsAligned interface extensions ↔ TagsAligned 0 (artifactMarks interface extensions) := by
  obtain ⟨calls, hcalls, htraced⟩ := exists_sifCalls h
  rw [← htraced.marks, ← alignedFrom_iff htraced.quads rfl]
  constructor
  · exact fun haligned => haligned calls hcalls
  · intro haligned calls' hcalls'
    obtain rfl := Except.ok.inj (hcalls.symm.trans hcalls')
    exact haligned

/-- **The strings of an artifact are aligned** exactly when before every one of them there is a
multiple of four tags. -/
theorem stringsAligned_iff (interface : InterfaceNode) (extensions : List InterfaceNode)
    (artifact : Bytes) (h : sifWrite interface extensions = .ok artifact) :
    (∃ calls, sifCalls interface extensions = .ok calls ∧
      writeEach WriterCall.run calls = .ok artifact) ∧
      (StringsAligned interface extensions ↔
        TagsAligned 0 (artifactMarks interface extensions)) := by
  obtain ⟨calls, hcalls, htraced⟩ := exists_sifCalls h
  exact ⟨⟨calls, hcalls, htraced.run⟩, stringsAligned_iff_tags h⟩

/-- `struct s { ptr<u8> p; }` has four tags before its only type name. -/
def pointerRevision : AbiversionNode :=
  { version := 0
    structs := [{ name := ascii "s"
                  annotations := []
                  fields := [{ type := .ptr false 0 (.named false 0 (ascii "u8"))
                               name := ascii "p" }] }] }

theorem exists_artifact_sample {revision : AbiversionNode} (h : revision.Encodable) :
    ∃ artifact, sifWrite (sampleInterface [revision]) [] = .ok artifact := by
  have hidentity : (sampleInterface []).IdentityEncodable := by decide
  have hwritable : Writable (sampleInterface [revision]) [] :=
    ⟨rfl, rfl, hidentity, List.cons_ne_nil _ _, Nat.one_lt_two_pow (by decide),
      List.forall_mem_singleton.2 h⟩
  exact ⟨_, (sifWrite_eq_ok_iff ..).2 ⟨hwritable, rfl⟩⟩

/-- The strings of a structure with one pointer are aligned. -/
theorem stringsAligned_pointer : StringsAligned (sampleInterface [pointerRevision]) [] := by
  have hencodable : pointerRevision.Encodable := by decide
  obtain ⟨artifact, hartifact⟩ := exists_artifact_sample hencodable
  have haligned := stringsAligned_iff (sampleInterface [pointerRevision]) [] artifact hartifact
  exact haligned.2.2 (by decide)

/-- In `function f(in const u8 x)` three tags come before the name of the type, which is not
aligned. -/
theorem not_stringsAligned_parameter :
    ¬ ∀ (interface : InterfaceNode) (extensions : List InterfaceNode) (artifact : Bytes),
      sifWrite interface extensions = .ok artifact → StringsAligned interface extensions := by
  intro hall
  have hencodable : (sampleRevision 0 0).Encodable := by decide
  obtain ⟨artifact, hartifact⟩ := exists_artifact_sample hencodable
  have htags : ¬ TagsAligned 0 (artifactMarks (sampleInterface [sampleRevision 0 0]) []) := by
    decide
  exact htags ((stringsAligned_iff_tags hartifact).1 (hall _ _ _ hartifact))

end Sidlc
