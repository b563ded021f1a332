import Sidlc.Sif.Equiv.Canonical
import Sidlc.Sif.Equiv.Stream

/-!
# Partial artifacts

What a failing `sif_write` leaves on the stream is never accepted by `sif_read`
(`sifRead_brokenOff`). The part that fits is the beginning of an artifact of an interface that is
cut down to what fits, and no accepted file is the beginning of another one.

`sif_read` itself fails with runtime errors only (`sifRead_error`), which its callers catch.
-/

namespace Sidlc

open CellFormat BinaryWriter StateExcept

/-! ### Lists of which the beginning fits -/

section Keeps

variable {α β : Type} {p : α → Prop} [DecidablePred p] {xs xs' ys ys' : List α}

/-- `ys` begins as `xs` does up to the first element that does not fit; where all fit, it is
`xs`. -/
def Keeps (p : α → Prop) [DecidablePred p] (xs ys : List α) : Prop :=
  xs.takeWhile p <+: ys ∧ ((∀ x ∈ xs, p x) → ys = xs)

theorem Keeps.refl (xs : List α) : Keeps p xs xs :=
  ⟨List.takeWhile_prefix _, fun _ => rfl⟩

theorem takeWhile_append_of_all (h : ∀ x ∈ xs, p x) :
    (xs ++ xs').takeWhile p = xs ++ xs'.takeWhile p :=
  List.takeWhile_append_of_pos (by simpa using h)

theorem Keeps.append (h : Keeps p xs ys) (h' : Keeps p xs' ys') :
    Keeps p (xs ++ xs') (ys ++ ys') := by
  by_cases hall : ∀ x ∈ xs, p x
  · rw [h.2 hall]
    refine ⟨?_, fun hboth => ?_⟩
    · rw [takeWhile_append_of_all hall]
      exact (List.prefix_append_right_inj xs).2 h'.1
    · rw [h'.2 fun x hx => hboth x (List.mem_append_right xs hx)]
  · -- what follows the first misfit does not matter
    refine ⟨?_, fun hboth => absurd (fun x hx => hboth x (List.mem_append_left xs' hx)) hall⟩
    have hstop : (xs ++ xs').takeWhile p = xs.takeWhile p := by
      rw [List.takeWhile_append]
      refine if_neg fun hlength => hall fun x hx => ?_
      have htake : xs.takeWhile p = xs := (List.takeWhile_prefix _).eq_of_length hlength
      rw [← htake] at hx
      simpa using List.all_eq_true.1 List.all_takeWhile x hx
    rw [hstop]
    exact h.1.trans (List.prefix_append ys ys')

theorem Keeps.cons {x : α} (h : Keeps p xs ys) : Keeps p (x :: xs) (x :: ys) :=
  (Keeps.refl [x]).append h

/-- An element that does not fit may be another one. -/
theorem Keeps.replace {x y : α} (h : p x → y = x) (hrest : Keeps p xs ys) :
    Keeps p (x :: xs) (y :: ys) := by
  have hfirst : Keeps p [x] [y] := by
    by_cases hx : p x
    · rw [h hx]
      exact .refl [x]
    · exact ⟨by simp [hx], fun hall => absurd (hall x List.mem_cons_self) hx⟩
  exact hfirst.append hrest

theorem Keeps.flatMap {f g : β → List α} {bs : List β}
    (h : ∀ b ∈ bs, Keeps p (f b) (g b)) :
    Keeps p (bs.flatMap f) (bs.flatMap g) := by
  induction bs with
  | nil => exact .refl []
  | cons b bs ih =>
    rw [List.flatMap_cons, List.flatMap_cons]
    exact (h b List.mem_cons_self).append (ih fun b' hb' => h b' (List.mem_cons_of_mem b hb'))

/-- A list of which the first does not fit may go on with anything. -/
theorem Keeps.stop {x : α} (h : ¬ p x) (ys : List α) : Keeps p (x :: xs) ys :=
  ⟨by simp [h], fun hall => absurd (hall x List.mem_cons_self) h⟩

end Keeps

/-! ### Cutting an interface down -/

/-- The list, if it can be counted. -/
def fitting {α : Type} (xs : List α) : List α :=
  if Countable xs then xs else []

section Fitting

variable {α : Type} {xs : List α}

theorem fitting_of_countable (h : Countable xs) : fitting xs = xs :=
  if_pos h

theorem countable_fitting (xs : List α) : Countable (fitting xs) := by
  by_cases h : Countable xs
  · rwa [fitting_of_countable h]
  · rw [fitting, if_neg h]
    exact Nat.two_pow_pos 32

end Fitting

def ExpressionNode.fitting : ExpressionNode → ExpressionNode
  | .string value => .string (Sidlc.fitting value)
  | .number value => .number value
  | .identifier name => .identifier (Sidlc.fitting name)

def AnnotationNode.fitting (node : AnnotationNode) : AnnotationNode where
  name := Sidlc.fitting node.name
  args := (Sidlc.fitting node.args).map ExpressionNode.fitting

def fittingAnnotations (nodes : List AnnotationNode) : List AnnotationNode :=
  (fitting nodes).map AnnotationNode.fitting

/-- The identity cut down, with one empty revision. -/
def InterfaceNode.fitting (interface : InterfaceNode) : InterfaceNode where
  name := Sidlc.fitting interface.name
  hasUuid := true
  uuidNamespace := interface.uuidNamespace
  uuidName := Sidlc.fitting interface.uuidName
  hasPrefix := true
  prefixStr := Sidlc.fitting interface.prefixStr
  annotations := fittingAnnotations interface.annotations
  abiversions := [{ version := 0 }]

theorem encodable_fitting_expression (node : ExpressionNode) : node.fitting.Encodable := by
  cases node with
  | string value => exact countable_fitting value
  | number value => trivial
  | identifier name => exact countable_fitting name

theorem encodable_fitting_annotation (node : AnnotationNode) : node.fitting.Encodable := by
  refine ⟨countable_fitting node.name, ?_, ?_⟩
  · rw [Countable, AnnotationNode.fitting, List.length_map]
    exact countable_fitting node.args
  · rw [AnnotationNode.fitting, List.forall_mem_map]
    exact fun arg _ => encodable_fitting_expression arg

theorem encodable_fittingAnnotations (nodes : List AnnotationNode) :
    AnnotationsEncodable (fittingAnnotations nodes) := by
  refine ⟨?_, ?_⟩
  · rw [Countable, fittingAnnotations, List.length_map]
    exact countable_fitting nodes
  · rw [fittingAnnotations, List.forall_mem_map]
    exact fun node _ => encodable_fitting_annotation node

theorem writable_fitting (interface : InterfaceNode) : Writable interface.fitting [] := by
  refine ⟨rfl, rfl, ⟨countable_fitting _, countable_fitting _, countable_fitting _,
    encodable_fittingAnnotations _⟩, List.cons_ne_nil _ _, Nat.one_lt_two_pow (by decide), ?_⟩
  exact List.forall_mem_singleton.2 (by decide)

/-! ### Its calls -/

section Calls

open WriterCall

variable {calls calls' : List WriterCall}

theorem keeps_string {value : Bytes} (h : Keeps Fits calls calls') :
    Keeps Fits (.string value :: calls) (.string (fitting value) :: calls') :=
  .replace (fun hfits => congrArg WriterCall.string (fitting_of_countable hfits)) h

/-- A count and the elements after it. -/
theorem keeps_counted {α : Type} {f : α → List WriterCall} {cut : α → α}
    (h : ∀ a, Keeps Fits (f a) (f (cut a))) (as : List α) :
    Keeps Fits (.count as.length :: as.flatMap f)
      (.count ((fitting as).map cut).length :: ((fitting as).map cut).flatMap f) := by
  by_cases hcount : Countable as
  · rw [fitting_of_countable hcount, List.length_map, List.flatMap_map]
    exact .cons (.flatMap fun a _ => h a)
  · have hmisfit : ¬ Fits (.count as.length) := hcount
    exact .stop hmisfit _

theorem keeps_expression (node : ExpressionNode) : Keeps Fits node.calls node.fitting.calls := by
  cases node with
  | string value => exact .cons (keeps_string (.refl []))
  | number value => exact .refl _
  | identifier name => exact .cons (keeps_string (.refl []))

theorem keeps_annotation (node : AnnotationNode) : Keeps Fits node.calls node.fitting.calls :=
  keeps_string (keeps_counted keeps_expression node.args)

theorem keeps_annotations (nodes : List AnnotationNode) :
    Keeps Fits (annotationsCalls nodes) (annotationsCalls (fittingAnnotations nodes)) :=
  keeps_counted keeps_annotation nodes

theorem keeps_identity {interface : InterfaceNode} (huuid : interface.hasUuid = true)
    (hpre : interface.hasPrefix = true) :
    Keeps Fits interface.identityCalls interface.fitting.identityCalls := by
  rw [InterfaceNode.identityCalls, huuid, hpre]
  exact keeps_string (.cons (keeps_string (keeps_string (keeps_annotations _))))

end Calls

/-! ### What is left on the stream -/

theorem sifRead_nil : ∃ e, sifRead [] = .error e :=
  ⟨_, rfl⟩

/-- An artifact is what its calls write. -/
theorem exists_artifactCalls {interface : InterfaceNode} {extensions : List InterfaceNode}
    {artifact : Bytes} (h : sifWrite interface extensions = .ok artifact) :
    ∃ hashes, artifact = (artifactCalls interface (allRevisions interface extensions)
      hashes).flatMap WriterCall.output := by
  obtain ⟨calls, hcalls, htraced⟩ := exists_sifCalls h
  obtain ⟨hwritable, -⟩ := (sifWrite_eq_ok_iff ..).1 h
  have hempty : (allRevisions interface extensions).isEmpty = false := by
    simpa using hwritable.nonempty
  simp only [sifCalls, hempty, Bool.false_eq_true, if_false] at hcalls
  obtain ⟨hashes, -, hcalls⟩ := except_bind_eq_ok.1 hcalls
  obtain rfl := except_pure_eq_ok.1 hcalls
  obtain ⟨-, rfl⟩ := (Writes.each WriterCall.writes_run _ _).1 htraced.run
  refine ⟨hashes, ?_⟩
  rw [encode, List.map_flatMap]
  exact List.flatMap_congr fun call _ => encode_literal call.output

/-- **What a failing `sif_write` leaves is not accepted.** -/
theorem sifRead_brokenOff {interface : InterfaceNode} (huuid : interface.hasUuid = true)
    (hpre : interface.hasPrefix = true) (extensions : List InterfaceNode) :
    ∃ e, sifRead (brokenOff interface extensions) = .error e := by
  rw [brokenOff]
  split
  case isFalse => exact sifRead_nil
  -- the artifact that the part begins
  obtain ⟨hashes, hartifact⟩ := exists_artifactCalls
    ((sifWrite_eq_ok_iff ..).2 ⟨writable_fitting interface, rfl⟩)
  have hread := (sifRead_eq_ok_iff ..).2
    ⟨(writable_fitting interface).decoded_merged ⟨rfl, trivial⟩, matches_encode _⟩
  obtain ⟨more, hmore⟩ := (keeps_identity huuid hpre).1
  have hlonger : ∃ table, ∃ root : Hash, ∃ trees,
      sifRead ((kSifMagic ++ (wordBytes 4 kSifFormatVersion.toBitVec ++
          (interface.identityCalls.takeWhile WriterCall.Fits).flatMap WriterCall.output)) ++
        (table ++ (root.toList ++ trees))) = .ok (interface.fitting.merged []) := by
    rw [hartifact, artifactCalls, ← hmore] at hread
    refine ⟨more.flatMap WriterCall.output ++ WriterCall.output (.count hashes.length),
      hashes.headD zeroHash, (hashes.map (WriterCall.bytes ·.toList) ++ revisionTreesCalls zeroHash
        ((allRevisions interface.fitting []).zip hashes)).flatMap WriterCall.output, ?_⟩
    simp only [List.flatMap_cons, List.flatMap_append, List.append_assoc, List.cons_append]
      at hread ⊢
    exact hread
  cases hpart : sifRead _ with
  | error e => exact ⟨e, rfl⟩
  | ok other =>
    obtain ⟨table, root, trees, hlonger⟩ := hlonger
    -- the hash table is missing
    have hnil := eq_nil_of_sifRead_append hpart hlonger
    have hroot : root.toList = [] :=
      (List.append_eq_nil_iff.1 (List.append_eq_nil_iff.1 hnil).2).1
    exact absurd (congrArg List.length hroot) (by simp)

/-! ### What `sif_read` raises -/

/-- The exceptions that the callers of `sif_read` and `sif_write` catch. -/
def Caught (e : Exn) : Prop :=
  ∃ what, e = .runtimeError what

section Raises

open RaisesOnly BinaryReader

theorem caught_throw {α : Type} (what : String) :
    RaisesOnly Caught (throw (.runtimeError what) : Reader α) :=
  .throw ⟨what, rfl⟩

theorem caught_throwIf (c : Prop) [Decidable c] (what : String) :
    RaisesOnly Caught (throwIf c (.runtimeError what) : Reader Unit) :=
  .throwIf ⟨what, rfl⟩

theorem caught_u8 : RaisesOnly Caught BinaryReader.u8
  | [], _, h => ⟨_, (Except.error.inj h).symm⟩

theorem caught_word (w n : Nat) : RaisesOnly Caught (BinaryReader.word w n) :=
  .foldlM (fun _ _ => .bind caught_u8 fun _ => .pure _) _ _

theorem caught_u32 : RaisesOnly Caught BinaryReader.u32 :=
  .map _ (caught_word 32 4)

theorem caught_u64 : RaisesOnly Caught BinaryReader.u64 :=
  .map _ (caught_word 64 8)

theorem caught_array (n : Nat) : RaisesOnly Caught (BinaryReader.array n) := by
  induction n with
  | zero => exact .pure _
  | succ n ih => exact .bind ih fun _ => .bind caught_u8 fun _ => .pure _

theorem caught_characters (size : Nat) : RaisesOnly Caught (characters size) := by
  intro input e h
  rw [characters] at h
  split at h
  · exact ⟨_, (Except.error.inj h).symm⟩
  · cases h

theorem caught_string : RaisesOnly Caught BinaryReader.string :=
  .bind caught_u32 fun _ => .bind (caught_characters _) fun _ =>
    .bind (.collectN (.bind caught_u8 fun _ => caught_throwIf _ _) _) fun _ => .pure _

theorem caught_counted {α : Type} {r : Reader α} (h : RaisesOnly Caught r) :
    RaisesOnly Caught (counted r) :=
  .bind caught_u32 fun _ => .collectN h _

/-! The nodes -/

theorem caught_ite {α : Type} {c : Prop} [Decidable c] {r r' : Reader α}
    (h : RaisesOnly Caught r) (h' : RaisesOnly Caught r') :
    RaisesOnly Caught (if c then r else r') := by
  split
  · exact h
  · exact h'

theorem caught_expression : RaisesOnly Caught readExpression :=
  .bind caught_u8 fun _ => caught_ite (.bind caught_string fun _ => .pure _) <|
    caught_ite (.bind caught_u64 fun _ => .pure _) <|
      caught_ite (.bind caught_string fun _ => .pure _) (caught_throw _)

theorem caught_annotations : RaisesOnly Caught readAnnotations :=
  caught_counted <| .bind caught_string fun _ =>
    .bind (caught_counted caught_expression) fun _ => .pure _

theorem caught_typeFuel (fuel : Nat) : RaisesOnly Caught (readTypeFuel fuel) := by
  induction fuel with
  | zero => exact caught_throw _
  | succ fuel ih =>
    exact .bind caught_u8 fun _ => .bind caught_u8 fun _ =>
      caught_ite (.bind caught_string fun _ => .pure _) <|
        caught_ite (.bind ih fun _ => .pure _) <|
          caught_ite (.bind ih fun _ => .pure _) (caught_throw _)

theorem caught_type : RaisesOnly Caught readType :=
  fun input => caught_typeFuel (input.length + 1) input

theorem caught_direction : RaisesOnly Caught readDirection :=
  .bind caught_u8 fun _ => caught_ite (.pure _) <| caught_ite (.pure _) <|
    caught_ite (.pure _) (caught_throw _)

theorem caught_parameter : RaisesOnly Caught readParameter :=
  .bind caught_direction fun _ => .bind caught_annotations fun _ => .bind caught_type fun _ =>
    .bind caught_string fun _ => .pure _

theorem caught_functionNode : RaisesOnly Caught readFunctionNode :=
  .bind caught_u32 fun _ => .bind caught_string fun _ => .bind caught_annotations fun _ =>
    .bind (caught_counted caught_parameter) fun _ => .pure _

theorem caught_struct : RaisesOnly Caught readStruct :=
  have field : RaisesOnly Caught readStructField :=
    .bind caught_type fun _ => .bind caught_string fun _ => .pure _
  .bind caught_string fun _ => .bind caught_annotations fun _ =>
    .bind (caught_counted field) fun _ => .pure _

theorem caught_bitfield : RaisesOnly Caught readBitfield :=
  have field : RaisesOnly Caught readBitfieldField :=
    .bind caught_string fun _ => .bind caught_u64 fun _ => .pure _
  .bind caught_string fun _ => .bind caught_annotations fun _ => .bind caught_type fun _ =>
    .bind (caught_counted field) fun _ => .pure _

theorem caught_enum : RaisesOnly Caught readEnum :=
  have member : RaisesOnly Caught readEnumMember :=
    .bind caught_string fun _ => .bind caught_u64 fun _ => .bind caught_annotations fun _ => .pure _
  .bind caught_string fun _ => .bind caught_annotations fun _ => .bind caught_type fun _ =>
    .bind (caught_counted member) fun _ => .pure _

theorem caught_functionsLoop (n : Nat) (owner : InterfaceNode) :
    RaisesOnly Caught (readFunctionsLoop n owner) := by
  induction n generalizing owner with
  | zero => exact .pure _
  | succ n ih =>
    have hfunction : RaisesOnly Caught (readFunction owner) :=
      .bind caught_functionNode fun _ => .pure _
    exact .bind hfunction fun (_, owner) => .bind (ih owner) fun _ => .pure _

theorem caught_revisionTree (owner : InterfaceNode) (expectedPreviousHash
    expectedRevisionHash : Hash) (expectedRevision : UInt64) :
    RaisesOnly Caught (readRevisionTree owner expectedPreviousHash expectedRevisionHash
      expectedRevision) := by
  have hfunctions : RaisesOnly Caught (readFunctions owner) :=
    .bind caught_u32 fun _ => caught_functionsLoop _ owner
  refine .bind caught_u64 fun _ => .bind (caught_array 32) fun _ => ?_
  refine .bind (caught_throwIf _ _) fun _ => .bind (caught_throwIf _ _) fun _ => ?_
  refine .bind caught_annotations fun _ => .bind (caught_counted caught_bitfield) fun _ => ?_
  refine .bind (caught_counted caught_enum) fun _ => ?_
  refine .bind (caught_counted caught_struct) fun _ => ?_
  refine .bind hfunctions fun (_, _) => .bind (.fromExcept fun _ => computeRevisionHash_error) ?_
  exact fun _ => .bind (caught_throwIf _ _) fun _ => .pure _

theorem caught_magic (magic : Bytes) : RaisesOnly Caught (readMagic magic) := by
  induction magic with
  | nil => exact .pure _
  | cons byte magic ih => exact .bind caught_u8 fun _ => .bind (caught_throwIf _ _) fun _ => ih

theorem caught_revisions (interface : InterfaceNode) (previousHash : Hash) (i : Nat)
    (hashes : List Hash) : RaisesOnly Caught (readRevisions interface previousHash i hashes) := by
  induction hashes generalizing interface previousHash i with
  | nil => exact .pure _
  | cons hash hashes ih =>
    exact .bind (caught_revisionTree interface previousHash hash _) fun _ => ih _ hash (i + 1)

theorem caught_hashTable : RaisesOnly Caught readHashTable :=
  .bind caught_u32 fun _ => .bind (caught_throwIf _ _) fun _ => .bind (caught_array 32) fun _ =>
    .bind (.collectN (caught_array 32) _) fun _ => .bind (caught_throwIf _ _) fun _ => .pure _

theorem caught_interface : RaisesOnly Caught readInterface := by
  refine .bind (caught_magic kSifMagic) fun _ => .bind caught_u32 fun _ => ?_
  refine .bind (caught_throwIf _ _) fun _ => .bind caught_string fun _ => ?_
  refine .bind (caught_array 16) fun _ => .bind caught_string fun _ => ?_
  refine .bind caught_string fun _ => .bind caught_annotations fun _ => ?_
  exact .bind caught_hashTable fun _ => caught_revisions _ _ _ _

end Raises

/-- **`sif_read` raises runtime errors only.** -/
theorem sifRead_error {input : Bytes} {e : Exn} (h : sifRead input = .error e) :
    Caught e := by
  rw [sifRead] at h
  rcases except_bind_eq_error.1 h with hread | ⟨⟨interface, rest⟩, -, h⟩
  · exact caught_interface input e hread
  · cases rest with
    | nil => cases h
    | cons byte rest => exact ⟨_, (Except.error.inj h).symm⟩

end Sidlc
