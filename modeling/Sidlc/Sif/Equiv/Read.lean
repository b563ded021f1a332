import Sidlc.Sif.Equiv.Write

/-!
# The readers accept the layouts

Every `read_*` function accepts exactly the bytes that match the layout of an encodable node with
nothing filled in beyond the format, and returns that node.
-/

namespace Sidlc

open CellFormat LittleEndian StateExcept

/-! ### `BinaryReader` -/

namespace BinaryReader

theorem u8_eq_ok_iff {input rest : Bytes} {byte : UInt8} :
    u8 input = .ok (byte, rest) ↔ input = byte :: rest := by
  cases input with
  | nil => simp [u8]
  | cons b bs => simp [u8]

theorem reads_u8 : Reads u8 Layout.u8 fun _ => True := by
  intro input byte rest
  simp [u8_eq_ok_iff, Layout.u8, matches_literal_iff]

/-- One round of the or-ing loop appends a byte at the significant end. -/
theorem or_byte_eq {w : Nat} (bs : Bytes) (b : UInt8) (hw : 8 * (bs.length + 1) ≤ w) :
    BitVec.ofNat w (valueLE bs) ||| (b.toBitVec.setWidth w <<< (bs.length * 8))
      = BitVec.ofNat w (valueLE (bs ++ [b])) := by
  have hlt : valueLE bs < 2 ^ (bs.length * 8) := by
    have := valueLE_lt bs
    rwa [show (256 : Nat) = 2 ^ 8 by norm_num, ← pow_mul, Nat.mul_comm] at this
  have happ := valueLE_lt (bs ++ [b])
  rw [List.length_append, List.length_singleton, show (256 : Nat) = 2 ^ 8 by norm_num,
    ← pow_mul] at happ
  have hle : 2 ^ (8 * (bs.length + 1)) ≤ 2 ^ w := Nat.pow_le_pow_right (by norm_num) hw
  have hval : valueLE (bs ++ [b]) = valueLE bs + b.toNat * 2 ^ (bs.length * 8) := by
    rw [valueLE_append, valueLE, valueLE, Nat.mul_zero, Nat.add_zero,
      show (256 : Nat) = 2 ^ 8 by norm_num, ← pow_mul, Nat.mul_comm 8, Nat.mul_comm b.toNat]
  have hb : b.toNat * 2 ^ (bs.length * 8) < 2 ^ w := by omega
  have hb' : b.toNat < 2 ^ w := by
    refine Nat.lt_of_lt_of_le b.toNat_lt (Nat.pow_le_pow_right (by norm_num) ?_)
    omega
  apply BitVec.eq_of_toNat_eq
  rw [BitVec.toNat_or, BitVec.toNat_shiftLeft, BitVec.toNat_setWidth, BitVec.toNat_ofNat,
    BitVec.toNat_ofNat, UInt8.toNat_toBitVec, Nat.mod_eq_of_lt hb', Nat.shiftLeft_eq,
    Nat.mod_eq_of_lt hb, Nat.mod_eq_of_lt (by omega), Nat.mod_eq_of_lt (by omega), hval,
    ← Nat.shiftLeft_eq, or_shiftLeft _ _ _ hlt, Nat.shiftLeft_eq]

/-- The or-ing loop collects the value of the bytes it consumes. -/
theorem word_eq_ok_iff {w : Nat} (n : Nat) (hn : 8 * n ≤ w) (input rest : Bytes)
    (value : BitVec w) :
    word w n input = .ok (value, rest) ↔
      ∃ bs, bs.length = n ∧ input = bs ++ rest ∧ value = BitVec.ofNat w (valueLE bs) := by
  induction n generalizing value rest with
  | zero =>
    simp only [word, List.range_zero, List.foldlM_nil, pure_eq_ok, List.length_eq_zero_iff]
    constructor
    · rintro ⟨rfl, rfl⟩
      exact ⟨[], rfl, rfl, rfl⟩
    · rintro ⟨_, rfl, rfl, rfl⟩
      exact ⟨rfl, rfl⟩
  | succ n ih =>
    have ih := ih (by omega)
    rw [word, List.range_succ, List.foldlM_append, bind_eq_ok]
    simp only [List.foldlM_cons, List.foldlM_nil, bind_eq_ok, pure_eq_ok, u8_eq_ok_iff]
    constructor
    · rintro ⟨v, mid, hv, v', _, ⟨b, _, rfl, rfl, rfl⟩, rfl, rfl⟩
      obtain ⟨bs, rfl, hin, rfl⟩ := (ih ..).1 hv
      exact ⟨bs ++ [b], by simp, by simp [hin], or_byte_eq bs b hn⟩
    · rintro ⟨bs', hlen, hin, rfl⟩
      obtain ⟨bs, b, rfl⟩ := List.eq_nil_or_concat bs' |>.resolve_left
        (by rintro rfl; simp at hlen)
      rw [List.concat_eq_append] at hlen hin ⊢
      obtain rfl : bs.length = n := by simpa using hlen
      exact ⟨_, b :: rest, (ih ..).2 ⟨bs, rfl, by simp [hin], rfl⟩, _, _,
        ⟨b, rest, rfl, rfl, rfl⟩, (or_byte_eq bs b hn).symm, rfl⟩

/-- Reading a whole word. -/
theorem reads_word {α : Type} {w n : Nat} (hw : w = 8 * n) (wrap : BitVec w → α)
    (unwrap : α → BitVec w) (h₁ : ∀ v, unwrap (wrap v) = v) (h₂ : ∀ a, wrap (unwrap a) = a) :
    Reads (wrap <$> word w n) (fun a => literal (bytesLE n (unwrap a).toNat)) fun _ => True := by
  intro input a rest
  simp only [map_eq_ok, word_eq_ok_iff n hw.ge, true_and, matches_literal_iff]
  have hpow : 2 ^ w = 256 ^ n := by rw [hw, pow_mul]; norm_num
  constructor
  · rintro ⟨_, ⟨bs, rfl, rfl, rfl⟩, rfl⟩
    refine ⟨bs, rfl, ?_⟩
    rw [h₁, BitVec.toNat_ofNat, Nat.mod_eq_of_lt (by rw [hpow]; exact valueLE_lt bs),
      bytesLE_valueLE]
  · rintro ⟨_, rfl, rfl⟩
    refine ⟨unwrap a, ⟨_, length_bytesLE .., rfl, ?_⟩, (h₂ a).symm⟩
    rw [valueLE_bytesLE _ _ (by rw [← hpow]; exact (unwrap a).isLt), BitVec.ofNat_toNat,
      BitVec.setWidth_eq]

theorem reads_u32 : Reads u32 Layout.u32 fun _ => True :=
  reads_word (w := 32) (n := 4) rfl UInt32.ofBitVec UInt32.toBitVec (fun _ => rfl) fun _ => rfl

theorem reads_u64 : Reads u64 Layout.u64 fun _ => True :=
  reads_word (w := 64) (n := 8) rfl UInt64.ofBitVec UInt64.toBitVec (fun _ => rfl) fun _ => rfl

theorem reads_array (n : Nat) :
    Reads (array n) (fun value => literal value.toList) fun _ => True := by
  induction n with
  | zero =>
    intro input value rest
    obtain rfl : value = #v[] := by ext i hi; omega
    simp [array, pure_eq_ok, literal, Matches, eq_comm]
  | succ n ih =>
    have h : ∀ (v : Vector UInt8 n) (b : UInt8) (value : Vector UInt8 (n + 1)),
        (True ∧ value.pop = v) ∧ value.back = b ↔ value = v.push b := by
      intro v b value
      constructor
      · rintro ⟨⟨-, rfl⟩, rfl⟩
        exact (Vector.push_pop_back value).symm
      · rintro rfl
        simp [Vector.back]
    refine (Reads.first (fun value : Vector UInt8 (n + 1) =>
      (value.pop : Vector UInt8 n)) ih fun v =>
      Reads.step Vector.back reads_u8 fun b => Reads.done (h v b)).congr ?_ (by simp)
    intro value _
    have hlist : value.pop.toList ++ [value.back] = value.toList := by
      rw [← Vector.toList_push, Vector.push_pop_back]
    rw [← hlist, literal, literal, Layout.u8, literal, List.map_append, List.append_nil]

theorem reads_hash : Reads hash (fun value => literal value.toList) fun _ => True :=
  reads_array 32

theorem reads_uuid : Reads uuid (fun value => literal value.toList) fun _ => True :=
  reads_array 16

/-! ### Strings and lists -/

theorem characters_eq_ok_iff {size : Nat} {input value rest : Bytes} :
    characters size input = .ok (value, rest) ↔ value.length = size ∧ input = value ++ rest := by
  rw [characters]
  split_ifs with h
  · refine iff_of_false (by simp) ?_
    rintro ⟨rfl, rfl⟩
    simp at h
  · simp only [Except.ok.injEq, Prod.mk.injEq]
    constructor
    · rintro ⟨rfl, rfl⟩
      refine ⟨?_, (List.take_append_drop ..).symm⟩
      rw [List.length_take]
      omega
    · rintro ⟨rfl, rfl⟩
      simp

theorem reads_characters (size : Nat) :
    Reads (characters size) literal fun value => value.length = size := by
  intro input value rest
  simp [characters_eq_ok_iff, matches_literal_iff]

theorem reads_paddingByte : Reads paddingByte (fun _ => Layout.u8 0) fun _ => True := by
  intro input _ rest
  simp only [paddingByte, bind_eq_ok, u8_eq_ok_iff, throwIf_eq_ok, true_and, Layout.u8,
    matches_literal_iff, exists_eq_right, not_ne_iff]
  constructor
  · rintro ⟨byte, mid, rfl, rfl, rfl⟩
    rfl
  · rintro rfl
    exact ⟨0, rest, rfl, rfl, rfl⟩

/-- The padding loop accepts zeros only. -/
theorem reads_padding (n : Nat) :
    Reads (collectN paddingByte n) (fun _ => literal (List.replicate n 0))
      fun pad => pad = List.replicate n () := by
  refine (reads_paddingByte.collectN n).congr ?_ fun pad => ?_
  · rintro pad ⟨rfl, -⟩
    induction pad with
    | nil => rfl
    | cons _ pad ih => rw [List.flatMap_cons, ih]; rfl
  · rw [List.eq_replicate_iff]
    simp

/-- A 32-bit count and what it counts. -/
theorem reads_sized {β : Type} (length : β → Nat) {r : Nat → Reader β} {layout : β → List Cell}
    {good : β → Prop} (hr : ∀ n, Reads (r n) layout fun b => length b = n ∧ good b) :
    Reads (u32 >>= fun size => r size.toNat)
      (fun b => literal (bytesLE 4 (length b)) ++ layout b)
      fun b => length b < 2 ^ 32 ∧ good b := by
  intro input b rest
  rw [bind_eq_ok]
  constructor
  · rintro ⟨size, mid, hsize, hb⟩
    obtain ⟨-, u, rfl, hu⟩ := (reads_u32 ..).1 hsize
    obtain ⟨⟨hlen, hg⟩, v, rfl, hv⟩ := (hr ..).1 hb
    refine ⟨⟨?_, hg⟩, u ++ v, (List.append_assoc ..).symm, ?_⟩
    · rw [hlen]
      exact size.toNat_lt
    · change Matches (literal (bytesLE 4 (length b)) ++ layout b) (u ++ v)
      rw [hlen]
      exact hu.append hv
  · rintro ⟨⟨hc, hg⟩, used, rfl, hused⟩
    obtain ⟨u, v, rfl, hu, hv⟩ := matches_append_iff.1 hused
    have hsize : (UInt32.ofNat (length b)).toNat = length b := UInt32.toNat_ofNat_of_lt' hc
    refine ⟨UInt32.ofNat (length b), v ++ rest, ?_, ?_⟩
    · refine (reads_u32 ..).2 ⟨trivial, u, List.append_assoc .., ?_⟩
      rwa [Layout.u32, hsize]
    · exact (hr ..).2 ⟨⟨hsize.symm, hg⟩, v, rfl, hv⟩

theorem reads_string : Reads string Layout.string Countable := by
  have h (n : Nat) : Reads (do
        let value ← characters n
        let _ ← collectN paddingByte (BinaryWriter.padding n)
        return value)
      (fun value => literal (value ++ List.replicate (BinaryWriter.padding value.length) 0))
      fun value => value.length = n ∧ True := by
    refine (Reads.first id (reads_characters n) fun value =>
      Reads.skip (reads_padding _) ⟨_, rfl⟩ (Reads.done (a := value) ?_)).congr ?_ ?_
    · simp
    · rintro value ⟨-, rfl, -⟩
      simp [literal]
    · simp
  refine (reads_sized List.length h).congr ?_ fun _ => and_iff_left trivial
  intro value _
  simp [Layout.string, literal]

/-- A count and the elements. -/
theorem reads_counted {α : Type} {r : Reader α} {layout : α → List Cell} {encodable : α → Prop}
    (hr : Reads r layout encodable) :
    Reads (counted r) (Layout.counted layout) (AllEncodable encodable) :=
  reads_sized List.length hr.collectN

end BinaryReader

open BinaryReader

/-! ### The nodes -/

/-- The byte that tells the kinds of expressions apart. -/
def ExpressionNode.kind : ExpressionNode → UInt8
  | .string _ => ExprKind.String
  | .number _ => ExprKind.Number
  | .identifier _ => ExprKind.Identifier

/-- The layout after the kind. -/
def ExpressionNode.bodyLayout : ExpressionNode → List Cell
  | .string value => Layout.string value
  | .number value => Layout.u64 value
  | .identifier name => Layout.string name

theorem reads_expression :
    Reads readExpression ExpressionNode.layout ExpressionNode.Encodable := by
  have h (kind : UInt8) : Reads
      (if kind = ExprKind.String then string >>= fun value => pure (.string value)
        else if kind = ExprKind.Number then u64 >>= fun value => pure (.number value)
        else if kind = ExprKind.Identifier then string >>= fun name => pure (.identifier name)
        else throw (.runtimeError "invalid expression kind in SIF"))
      ExpressionNode.bodyLayout fun node => (True ∧ node.kind = kind) ∧ node.Encodable := by
    split_ifs with h₁ h₂ h₃
    · refine reads_string.wrap _ (fun _ => rfl) fun node => ?_
      cases node <;> simp [h₁, ExpressionNode.kind, ExpressionNode.Encodable, ExprKind.String,
        ExprKind.Number, ExprKind.Identifier]
    · refine reads_u64.wrap _ (fun _ => rfl) fun node => ?_
      cases node <;> simp [h₂, ExpressionNode.kind, ExpressionNode.Encodable, ExprKind.String,
        ExprKind.Number, ExprKind.Identifier]
    · refine reads_string.wrap _ (fun _ => rfl) fun node => ?_
      cases node <;> simp [h₃, ExpressionNode.kind, ExpressionNode.Encodable, ExprKind.String,
        ExprKind.Number, ExprKind.Identifier]
    · refine Reads.fail fun node hnode => ?_
      cases node <;> exact absurd hnode.1.2.symm ‹_›
  refine (Reads.first _ reads_u8 h).congr ?_ (by simp)
  rintro (_ | _ | _) - <;> rfl

theorem reads_annotation :
    Reads readAnnotationNode AnnotationNode.layout AnnotationNode.Encodable := by
  unfold readAnnotationNode
  refine (Reads.first AnnotationNode.name reads_string fun name =>
    Reads.step AnnotationNode.args (reads_counted reads_expression) fun args =>
    Reads.done (a := ⟨name, args⟩) fun node => ?_).congr (fun node _ => ?_) fun node => ?_
  · cases node; simp
  · simp [AnnotationNode.layout]
  · simp [AnnotationNode.Encodable]

theorem reads_annotations : Reads readAnnotations Layout.annotations AnnotationsEncodable :=
  reads_counted reads_annotation

/-! ### Types -/

/-- A flag is set by any byte but zero. -/
theorem reads_flag {β : Type} {f : Bool → Reader β} {lb : β → List Cell} {known gb : β → Prop}
    (part : β → Bool) (hf : ∀ c, Reads (f c) lb fun b => (known b ∧ part b = c) ∧ gb b) :
    Reads (u8 >>= fun flag => f (flag != 0)) (fun b => .flag (part b) :: lb b)
      fun b => known b ∧ gb b := by
  intro input b rest
  simp only [bind_eq_ok, u8_eq_ok_iff]
  constructor
  · rintro ⟨byte, mid, rfl, h⟩
    obtain ⟨⟨⟨hk, hp⟩, hg⟩, ys, rfl, hys⟩ := (hf _ ..).1 h
    exact ⟨⟨hk, hg⟩, byte :: ys, rfl, .cons hp.symm hys⟩
  · rintro ⟨⟨hk, hg⟩, _, rfl, hused⟩
    obtain ⟨byte, ys, hb, hys, rfl⟩ := List.forall₂_cons_left_iff.1 hused
    exact ⟨byte, ys ++ rest, rfl, (hf _ ..).2 ⟨⟨⟨hk, Eq.symm hb⟩, hg⟩, ys, rfl, hys⟩⟩

namespace TypeNode

/-- The byte that tells the kinds of types apart. -/
def kind : TypeNode → UInt8
  | .named .. => TypeKind.Named
  | .ptr .. => TypeKind.Ptr
  | .array .. => TypeKind.Array

/-- The layout after the flag and the kind. -/
def bodyLayout : TypeNode → List Cell
  | .named _ _ name => Layout.string name
  | .ptr _ _ innerType => innerType.layout
  | .array _ _ innerType => innerType.layout

/-- The number of pointers and arrays around the name. -/
def depth : TypeNode → Nat
  | .named .. => 0
  | .ptr _ _ innerType => innerType.depth + 1
  | .array _ _ innerType => innerType.depth + 1

theorem depth_lt_length_layout (t : TypeNode) : t.depth < t.layout.length := by
  induction t with
  | named c n name => exact Nat.succ_pos _
  | ptr c n t ih => rw [depth, layout, List.length_cons, List.length_append]; omega
  | array c n t ih => rw [depth, layout, List.length_cons, List.length_append]; omega

end TypeNode

/-- With enough levels, `read_type` reads the types that carry no sizes. -/
theorem reads_typeFuel (fuel : Nat) :
    Reads (readTypeFuel fuel) TypeNode.layout
      fun t => t.depth < fuel ∧ t.Encodable ∧ t.bare = t := by
  induction fuel with
  | zero => exact Reads.fail fun t h => absurd h.1 (Nat.not_lt_zero _)
  | succ fuel ih =>
    have h (c : Bool) (kind : UInt8) : Reads
        (if kind = TypeKind.Named then string >>= fun name => pure (.named c 0 name)
          else if kind = TypeKind.Ptr then readTypeFuel fuel >>= fun t => pure (.ptr c 0 t)
          else if kind = TypeKind.Array then readTypeFuel fuel >>= fun t => pure (.array c 0 t)
          else throw (.runtimeError "invalid type kind in SIF"))
        TypeNode.bodyLayout fun t => ((True ∧ t.isConst = c) ∧ t.kind = kind) ∧
          (t.depth < fuel + 1 ∧ t.Encodable ∧ t.bare = t) := by
      split_ifs with h₁ h₂ h₃
      · refine reads_string.wrap _ (fun _ => rfl) fun t => ?_
        cases t <;> simp [h₁, TypeNode.kind, TypeNode.Encodable, TypeNode.isConst, TypeNode.depth,
          TypeNode.bare, TypeKind.Named, TypeKind.Ptr, TypeKind.Array]
        grind
      · refine ih.wrap _ (fun _ => rfl) fun t => ?_
        cases t <;> simp [h₂, TypeNode.kind, TypeNode.Encodable, TypeNode.isConst, TypeNode.depth,
          TypeNode.bare, TypeKind.Named, TypeKind.Ptr, TypeKind.Array]
        grind
      · refine ih.wrap _ (fun _ => rfl) fun t => ?_
        cases t <;> simp [h₃, TypeNode.kind, TypeNode.Encodable, TypeNode.isConst, TypeNode.depth,
          TypeNode.bare, TypeKind.Named, TypeKind.Ptr, TypeKind.Array]
        grind
      · refine Reads.fail fun t ht => ?_
        cases t <;> exact absurd ht.1.2.symm ‹_›
    refine (reads_flag TypeNode.isConst fun c =>
      Reads.step TypeNode.kind reads_u8 (h c)).congr (fun t _ => ?_) fun t => ?_
    · cases t <;> rfl
    · simp

theorem reads_type :
    Reads readType TypeNode.layout fun t => t.Encodable ∧ t.bare = t := by
  intro input t rest
  rw [readType, reads_typeFuel]
  constructor
  · rintro ⟨⟨-, hg⟩, h⟩
    exact ⟨hg, h⟩
  · rintro ⟨hg, used, rfl, h⟩
    refine ⟨⟨?_, hg⟩, used, rfl, h⟩
    have := t.depth_lt_length_layout
    rw [List.length_append, h.length_eq]
    omega

/-! ### Declarations -/

theorem reads_direction :
    Reads readDirection (fun d => Layout.u8 d.toByte) fun _ => True := by
  have h (byte : UInt8) : Reads
      (if byte = Direction.IN.toByte then pure .IN
        else if byte = Direction.OUT.toByte then pure .OUT
        else if byte = Direction.INOUT.toByte then pure .INOUT
        else throw (.runtimeError "invalid parameter direction in SIF") : Reader Direction)
      (fun _ => []) fun d : Direction => (True ∧ d.toByte = byte) ∧ True := by
    split_ifs with h₁ h₂ h₃
    · exact Reads.done fun d => by cases d <;> simp [h₁, Direction.toByte]
    · exact Reads.done fun d => by cases d <;> simp [h₂, Direction.toByte]
    · exact Reads.done fun d => by cases d <;> simp [h₃, Direction.toByte]
    · refine Reads.fail fun d hd => ?_
      cases d <;> exact absurd hd.1.2.symm ‹_›
  exact (Reads.first Direction.toByte reads_u8 h).congr (by simp) (by simp)

theorem reads_parameter :
    Reads readParameter ParameterNode.layout fun node => node.Encodable ∧ node.bare = node := by
  unfold readParameter
  have hdone (direction : Direction) (annotations : List AnnotationNode) (type : TypeNode)
      (name : Bytes) (node : ParameterNode) :
      (((True ∧ node.direction = direction) ∧ node.annotations = annotations) ∧
        node.type = type) ∧ node.name = name ↔ node = ⟨direction, type, name, annotations⟩ := by
    cases node; simp; tauto
  refine Reads.congr (Reads.first ParameterNode.direction reads_direction fun direction =>
    Reads.step ParameterNode.annotations reads_annotations fun annotations =>
    Reads.step ParameterNode.type reads_type fun type =>
    Reads.step ParameterNode.name reads_string fun name =>
    Reads.done (hdone direction annotations type name)) (fun node _ => ?_) fun node => ?_
  · simp [ParameterNode.layout]
  · cases node; simp [ParameterNode.Encodable, ParameterNode.bare]; grind

/-- Lists of nodes that carry nothing beyond the format. -/
theorem allEncodable_and_bare {α : Type} {encodable : α → Prop} {bare : α → α} (xs : List α) :
    AllEncodable (fun x => encodable x ∧ bare x = x) xs ↔
      AllEncodable encodable xs ∧ xs.map bare = xs := by
  have hmap : xs.map bare = xs ↔ ∀ x ∈ xs, bare x = x := by
    induction xs with
    | nil => simp
    | cons x xs ih => simp [ih]
  rw [AllEncodable, AllEncodable, and_assoc, hmap, ← forall₂_and]

theorem reads_functionNode :
    Reads readFunctionNode FunctionNode.layout fun node => node.Encodable ∧ node.bare = node := by
  unfold readFunctionNode
  have hdone (id : UInt32) (name : Bytes) (annotations : List AnnotationNode)
      (parameters : List ParameterNode) (node : FunctionNode) :
      (((True ∧ node.id = id) ∧ node.name = name) ∧ node.annotations = annotations) ∧
        node.parameters = parameters ↔ node = ⟨name, annotations, parameters, id⟩ := by
    cases node; simp; tauto
  refine Reads.congr (Reads.first FunctionNode.id reads_u32 fun id =>
    Reads.step FunctionNode.name reads_string fun name =>
    Reads.step FunctionNode.annotations reads_annotations fun annotations =>
    Reads.step FunctionNode.parameters (reads_counted reads_parameter) fun parameters =>
    Reads.done (hdone id name annotations parameters)) (fun node _ => ?_) fun node => ?_
  · simp [FunctionNode.layout]
  · cases node; simp [FunctionNode.Encodable, FunctionNode.bare, allEncodable_and_bare]; grind

theorem reads_structField :
    Reads readStructField StructFieldNode.layout
      fun node => node.Encodable ∧ node.bare = node := by
  unfold readStructField
  refine (Reads.first StructFieldNode.type reads_type fun type =>
    Reads.step StructFieldNode.name reads_string fun name =>
    Reads.done (a := ⟨type, name⟩) fun node => ?_).congr (fun node _ => ?_) fun node => ?_
  · cases node; simp
  · simp [StructFieldNode.layout]
  · cases node; simp [StructFieldNode.Encodable, StructFieldNode.bare]; tauto

theorem reads_struct :
    Reads readStruct StructNode.layout fun node => node.Encodable ∧ node.bare = node := by
  unfold readStruct
  refine (Reads.first StructNode.name reads_string fun name =>
    Reads.step StructNode.annotations reads_annotations fun annotations =>
    Reads.step StructNode.fields (reads_counted reads_structField) fun fields =>
    Reads.done (a := ⟨name, annotations, fields⟩) fun node => ?_).congr
      (fun node _ => ?_) fun node => ?_
  · cases node; simp; tauto
  · simp [StructNode.layout]
  · cases node; simp [StructNode.Encodable, StructNode.bare, allEncodable_and_bare]; tauto

theorem reads_bitfieldField :
    Reads readBitfieldField BitfieldFieldNode.layout BitfieldFieldNode.Encodable := by
  unfold readBitfieldField
  refine (Reads.first BitfieldFieldNode.name reads_string fun name =>
    Reads.step BitfieldFieldNode.bits reads_u64 fun bits =>
    Reads.done (a := ⟨name, bits⟩) fun node => ?_).congr (fun node _ => ?_) fun node => ?_
  · cases node; simp
  · simp [BitfieldFieldNode.layout]
  · simp [BitfieldFieldNode.Encodable]

theorem reads_bitfield :
    Reads readBitfield BitfieldNode.layout fun node => node.Encodable ∧ node.bare = node := by
  unfold readBitfield
  have hdone (name : Bytes) (annotations : List AnnotationNode) (baseType : TypeNode)
      (fields : List BitfieldFieldNode) (node : BitfieldNode) :
      (((True ∧ node.name = name) ∧ node.annotations = annotations) ∧ node.baseType = baseType) ∧
        node.fields = fields ↔ node = ⟨name, baseType, annotations, fields⟩ := by
    cases node; simp; tauto
  refine Reads.congr (Reads.first BitfieldNode.name reads_string fun name =>
    Reads.step BitfieldNode.annotations reads_annotations fun annotations =>
    Reads.step BitfieldNode.baseType reads_type fun baseType =>
    Reads.step BitfieldNode.fields (reads_counted reads_bitfieldField) fun fields =>
    Reads.done (hdone name annotations baseType fields)) (fun node _ => ?_) fun node => ?_
  · simp [BitfieldNode.layout]
  · cases node; simp [BitfieldNode.Encodable, BitfieldNode.bare]; grind

theorem reads_enumMember :
    Reads readEnumMember EnumMemberNode.layout EnumMemberNode.Encodable := by
  unfold readEnumMember
  refine (Reads.first EnumMemberNode.name reads_string fun name =>
    Reads.step EnumMemberNode.value reads_u64 fun value =>
    Reads.step EnumMemberNode.annotations reads_annotations fun annotations =>
    Reads.done (a := ⟨name, value, annotations⟩) fun node => ?_).congr
      (fun node _ => ?_) fun node => ?_
  · cases node; simp; tauto
  · simp [EnumMemberNode.layout]
  · simp [EnumMemberNode.Encodable]

theorem reads_enum :
    Reads readEnum EnumNode.layout fun node => node.Encodable ∧ node.bare = node := by
  unfold readEnum
  have hdone (name : Bytes) (annotations : List AnnotationNode) (baseType : TypeNode)
      (members : List EnumMemberNode) (node : EnumNode) :
      (((True ∧ node.name = name) ∧ node.annotations = annotations) ∧ node.baseType = baseType) ∧
        node.members = members ↔ node = ⟨name, baseType, annotations, members⟩ := by
    cases node; simp; tauto
  refine Reads.congr (Reads.first EnumNode.name reads_string fun name =>
    Reads.step EnumNode.annotations reads_annotations fun annotations =>
    Reads.step EnumNode.baseType reads_type fun baseType =>
    Reads.step EnumNode.members (reads_counted reads_enumMember) fun members =>
    Reads.done (hdone name annotations baseType members)) (fun node _ => ?_) fun node => ?_
  · simp [EnumNode.layout]
  · cases node; simp [EnumNode.Encodable, EnumNode.bare]; grind

/-! ### Revisions -/

/-- The nodes that stamping leaves alone. -/
theorem AbiversionNode.stamp_eq_iff {node : AbiversionNode} {previousHash abiHash : Hash} :
    node.stamp previousHash abiHash = node ↔
      node.functions.map FunctionNode.bare = node.functions ∧
        node.structs.map StructNode.bare = node.structs ∧
        node.bitfields.map BitfieldNode.bare = node.bitfields ∧
        node.enums.map EnumNode.bare = node.enums ∧
        node.previousHash = previousHash ∧ node.abiHash = abiHash := by
  cases node
  simp only [stamp, bare, AbiversionNode.mk.injEq, true_and, eq_comm (a := previousHash),
    eq_comm (a := abiHash)]
  tauto

namespace InterfaceNode

/-- The owner after some functions have been read for it. -/
def noteFunctions (owner : InterfaceNode) (functions : List FunctionNode) : InterfaceNode :=
  functions.foldl noteFunction owner

theorem noteFunctions_eq (owner : InterfaceNode) (functions : List FunctionNode) :
    owner.noteFunctions functions =
      { owner with currentFuncid := nextFuncid owner.currentFuncid functions } := by
  induction functions generalizing owner with
  | nil => rfl
  | cons f fs ih => rw [noteFunctions, List.foldl_cons, ← noteFunctions, ih]; rfl

end InterfaceNode

theorem readFunctionsLoop_eq_ok_iff {n : Nat} {owner owner' : InterfaceNode} {input rest : Bytes}
    {functions : List FunctionNode} :
    readFunctionsLoop n owner input = .ok ((functions, owner'), rest) ↔
      collectN readFunctionNode n input = .ok (functions, rest) ∧
        owner' = owner.noteFunctions functions := by
  induction n generalizing owner input functions with
  | zero =>
    simp only [readFunctionsLoop, collectN, pure_eq_ok, Prod.mk.injEq]
    grind [InterfaceNode.noteFunctions]
  | succ n ih =>
    simp only [readFunctionsLoop, readFunction, collectN, bind_eq_ok, pure_eq_ok, Prod.mk.injEq]
    constructor
    · rintro ⟨_, _, ⟨node, _, hnode, rfl, rfl⟩, ⟨fs, _⟩, _, hfs, ⟨rfl, rfl⟩, rfl⟩
      obtain ⟨hcollect, rfl⟩ := ih.1 hfs
      exact ⟨⟨node, _, hnode, fs, _, hcollect, rfl, rfl⟩, rfl⟩
    · rintro ⟨⟨node, _, hnode, fs, _, hfs, rfl, rfl⟩, rfl⟩
      exact ⟨_, _, ⟨node, _, hnode, rfl, rfl⟩, (fs, _), _, ih.2 ⟨hfs, rfl⟩, ⟨rfl, rfl⟩, rfl⟩

/-- The functions are read one by one, and noted with the owner. -/
theorem reads_functions (owner : InterfaceNode) :
    Reads (readFunctions owner)
      (fun b : List FunctionNode × InterfaceNode => Layout.counted FunctionNode.layout b.1)
      fun b => AllEncodable FunctionNode.Encodable b.1 ∧ b.1.map FunctionNode.bare = b.1 ∧
        b.2 = owner.noteFunctions b.1 := by
  have h (n : Nat) : Reads (readFunctionsLoop n owner)
      (fun b : List FunctionNode × InterfaceNode => b.1.flatMap FunctionNode.layout)
      fun b => b.1.length = n ∧ (∀ x ∈ b.1, x.Encodable ∧ x.bare = x) ∧
        b.2 = owner.noteFunctions b.1 := by
    rintro input ⟨functions, owner'⟩ rest
    rw [readFunctionsLoop_eq_ok_iff, reads_functionNode.collectN]
    tauto
  refine (reads_sized (List.length ∘ Prod.fst) h).congr (fun _ _ => rfl) fun b => ?_
  rw [← and_assoc, ← and_assoc, ← allEncodable_and_bare]
  rfl

/-- **`read_revision_tree` accepts the trees of the revisions that carry the expected place in the
chain and are hashed to the expected hash.** -/
theorem reads_revisionTree (owner : InterfaceNode) (hu : owner.hasUuid = true)
    (previousHash revisionHash : Hash) (version : UInt64) :
    Reads (readRevisionTree owner previousHash revisionHash version)
      (fun b => b.1.layout previousHash)
      fun b => (b.1.version = version ∧ b.1.Encodable ∧
        b.1.stamp previousHash revisionHash = b.1 ∧
        owner.revisionHash b.1 previousHash = revisionHash) ∧
        b.2 = owner.noteFunctions b.1.functions := by
  have htail (version' : UInt64) (previousHash' : Hash) (annotations : List AnnotationNode)
      (bitfields : List BitfieldNode) (enums : List EnumNode) (structs : List StructNode)
      (functions : List FunctionNode) (owner' : InterfaceNode) : Reads (do
        let node : AbiversionNode := AbiversionNode.mk version' previousHash' zeroHash annotations
          functions structs bitfields enums
        let abiHash ← fromExcept (computeRevisionHash owner' node previousHash)
        throwIf (abiHash ≠ revisionHash) (.runtimeError "SIF revision hash mismatch")
        return ({ node with abiHash }, owner'))
      (fun _ => []) fun b => (((((((True ∧ b.1.version = version') ∧
        b.1.previousHash = previousHash') ∧ b.1.annotations = annotations) ∧
        b.1.bitfields = bitfields) ∧ b.1.enums = enums) ∧ b.1.structs = structs) ∧
        (b.1.functions, b.2) = (functions, owner')) ∧ (b.1.abiHash = revisionHash ∧
          b.2.hasUuid = true ∧ b.1.Encodable ∧
          b.2.revisionHash b.1 previousHash = revisionHash) := by
    rintro input ⟨node, owner''⟩ rest
    simp only [bind_eq_ok, fromExcept_eq_ok, throwIf_eq_ok, pure_eq_ok,
      computeRevisionHash_eq_ok_iff, not_ne_iff, Matches, List.forall₂_nil_left_iff]
    constructor
    · rintro ⟨_, _, ⟨⟨hu', henc, rfl⟩, rfl⟩, _, _, ⟨hh, rfl⟩, hres, rfl⟩
      obtain ⟨rfl, rfl⟩ := Prod.mk.inj hres
      refine ⟨⟨by simp, hh, hu', henc, hh⟩, [], rfl, rfl⟩
    · rintro ⟨⟨⟨⟨⟨⟨⟨⟨⟨-, rfl⟩, rfl⟩, rfl⟩, rfl⟩, rfl⟩, rfl⟩, hfs⟩, rfl, hu', henc, hh⟩, _, rfl,
        rfl⟩
      obtain ⟨rfl, rfl⟩ := Prod.mk.inj hfs
      exact ⟨_, _, ⟨⟨hu', henc, hh.symm⟩, rfl⟩, (), _, ⟨rfl, rfl⟩, rfl, rfl⟩
  unfold readRevisionTree
  refine (Reads.first (AbiversionNode.version ∘ Prod.fst) reads_u64 fun version' =>
    Reads.step (AbiversionNode.previousHash ∘ Prod.fst) reads_hash fun previousHash' =>
    Reads.guard (fun b => b.1.version = version) (fun b hb => ?_) <|
    Reads.guard (fun b => b.1.previousHash = previousHash) (fun b hb => ?_) <|
    Reads.step (AbiversionNode.annotations ∘ Prod.fst) reads_annotations fun annotations =>
    Reads.step (AbiversionNode.bitfields ∘ Prod.fst) (reads_counted reads_bitfield) fun bitfields =>
    Reads.step (AbiversionNode.enums ∘ Prod.fst) (reads_counted reads_enum) fun enums =>
    Reads.step (AbiversionNode.structs ∘ Prod.fst) (reads_counted reads_struct) fun structs =>
    Reads.step (Prod.map AbiversionNode.functions id) (reads_functions owner) fun functions =>
    htail _ _ _ _ _ _ _ _).congr (fun b hb => ?_) fun b => ?_
  · rw [hb.1.2, not_ne_iff]
  · rw [hb.2, not_ne_iff]
  · rw [← hb.2.2.2.2.1]
    simp [AbiversionNode.layout, AbiversionNode.membersLayout]
  · obtain ⟨node, owner'⟩ := b
    simp only [allEncodable_and_bare, AbiversionNode.stamp_eq_iff, AbiversionNode.Encodable,
      Function.comp_apply, Prod.map_apply, id_eq, true_and]
    constructor
    · rintro ⟨hv, hp, ha, hb, he, hs, ⟨hf, hfb, rfl⟩, habi, -, -, hh⟩
      rw [InterfaceNode.noteFunctions_eq] at hh
      exact ⟨⟨hv, ⟨ha, hb.1, he.1, hs.1, hf⟩, ⟨hfb, hs.2, hb.2, he.2, hp, habi⟩, hh⟩, rfl⟩
    · rintro ⟨⟨hv, henc, ⟨hfb, hs, hb, he, hp, habi⟩, hh⟩, rfl⟩
      obtain ⟨ha, hbe, hee, hse, hf⟩ := id henc
      refine ⟨hv, hp, ha, ⟨hbe, hb⟩, ⟨hee, he⟩, ⟨hse, hs⟩, ⟨hf, hfb, rfl⟩, habi, ?_, henc, ?_⟩
      · rwa [InterfaceNode.noteFunctions_eq]
      · rw [InterfaceNode.noteFunctions_eq]
        exact hh

namespace InterfaceNode

/-- The interface after the trees of some more revisions have been read for it. -/
def extend (interface : InterfaceNode) (nodes : List AbiversionNode) : InterfaceNode :=
  { interface with
    abiversions := interface.abiversions ++ nodes
    currentFuncid := nextFuncid interface.currentFuncid (functionsOf nodes) }

theorem extend_nil (interface : InterfaceNode) : interface.extend [] = interface := by
  simp [extend, functionsOf, nextFuncid]

theorem extend_cons (interface : InterfaceNode) (node : AbiversionNode)
    (nodes : List AbiversionNode) :
    interface.extend (node :: nodes) = (interface.extend [node]).extend nodes := by
  simp [extend, functionsOf, nextFuncid]

theorem noteFunctions_push (interface : InterfaceNode) (node : AbiversionNode) :
    let owner := interface.noteFunctions node.functions
    { owner with abiversions := owner.abiversions ++ [node] } = interface.extend [node] := by
  simp [noteFunctions_eq, extend, functionsOf]

end InterfaceNode

/-- The loop over the hash table reads the trees of a chain with these hashes. -/
theorem readRevisions_eq_ok_iff {interface result : InterfaceNode}
    (hu : interface.hasUuid = true) {previousHash : Hash} {i : Nat} {hashes : List Hash}
    {input rest : Bytes} :
    readRevisions interface previousHash i hashes input = .ok (result, rest) ↔
      ∃ nodes, result = interface.extend nodes ∧
        VersionsFrom i nodes ∧ (∀ node ∈ nodes, node.Encodable) ∧
        interface.stampRevisions previousHash nodes = nodes ∧
        nodes.map AbiversionNode.abiHash = hashes ∧
        ∃ used, input = used ++ rest ∧ Matches (InterfaceNode.treesLayout nodes) used := by
  induction hashes generalizing interface previousHash i input with
  | nil =>
    simp only [readRevisions, pure_eq_ok, List.map_eq_nil_iff]
    constructor
    · rintro ⟨rfl, rfl⟩
      exact ⟨[], result.extend_nil.symm, trivial, by simp, rfl, rfl, [], rfl, .nil⟩
    · rintro ⟨_, rfl, -, -, -, rfl, _, rfl, hused⟩
      obtain rfl := List.forall₂_nil_left_iff.1 hused
      exact ⟨interface.extend_nil, rfl⟩
  | cons hash hashes ih =>
    have hu' (node : AbiversionNode) : (interface.extend [node]).hasUuid = true := hu
    have hcongr (node : AbiversionNode) (p : Hash) (nodes : List AbiversionNode) :
        (interface.extend [node]).stampRevisions p nodes = interface.stampRevisions p nodes :=
      InterfaceNode.stampRevisions_congr (by rfl) p nodes
    simp only [readRevisions, bind_eq_ok]
    constructor
    · rintro ⟨⟨node, owner⟩, mid, hnode, h⟩
      obtain ⟨⟨⟨hv, henc, hst, hh⟩, hown⟩, xs, rfl, hxs⟩ := (reads_revisionTree _ hu ..).1 hnode
      simp only at hv henc hst hh hown hxs h
      obtain ⟨-, -, -, -, hp, ha⟩ := AbiversionNode.stamp_eq_iff.1 hst
      rw [hown, InterfaceNode.noteFunctions_push] at h
      obtain ⟨nodes, rfl, hvs, hencs, hsts, rfl, ys, rfl, hys⟩ := (ih (hu' node)).1 h
      rw [hcongr] at hsts
      refine ⟨node :: nodes, (interface.extend_cons ..).symm, ⟨hv, hvs⟩,
        List.forall_mem_cons.2 ⟨henc, hencs⟩, ?_, by rw [List.map_cons, ha], xs ++ ys,
        (List.append_assoc ..).symm, ?_⟩
      · rw [InterfaceNode.stampRevisions_cons_eq_iff, ha]
        exact ⟨hst, hh, hsts⟩
      · rw [← hp] at hxs
        exact hxs.append hys
    · rintro ⟨_ | ⟨node, nodes⟩, rfl, ⟨hv, hvs⟩, henc, hst, hh, used, rfl, hused⟩
      · simp at hh
      obtain ⟨rfl, rfl⟩ := List.cons.inj hh
      obtain ⟨hst, hh, hsts⟩ := (InterfaceNode.stampRevisions_cons_eq_iff _).1 hst
      obtain ⟨-, -, -, -, hp, -⟩ := AbiversionNode.stamp_eq_iff.1 hst
      rw [List.forall_mem_cons] at henc
      obtain ⟨xs, ys, rfl, hxs, hys⟩ := matches_append_iff.1 hused
      change Matches (node.layout node.previousHash) xs at hxs
      rw [hp] at hxs
      refine ⟨(node, interface.noteFunctions node.functions), ys ++ rest,
        (reads_revisionTree _ hu ..).2 ⟨⟨⟨hv, henc.1, hst, hh⟩, rfl⟩, xs,
          List.append_assoc .., hxs⟩, ?_⟩
      simp only
      rw [InterfaceNode.noteFunctions_push]
      refine (ih (hu' node)).2 ⟨nodes, interface.extend_cons .., hvs, henc.2, ?_, rfl, ys, rfl, hys⟩
      rwa [hcongr]

/-! ### `sif_read` -/

theorem reads_magic (magic : Bytes) :
    Reads (readMagic magic) (fun _ => literal magic) fun _ => True := by
  induction magic with
  | nil =>
    have hdone : ∀ u : Unit, True ↔ u = () := fun _ => iff_of_true trivial rfl
    exact (Reads.done hdone).congr (by simp [literal]) (by simp)
  | cons byte magic ih => exact Reads.expect reads_u8 trivial ih

theorem reads_hashTable :
    Reads readHashTable InterfaceNode.hashTableLayout fun hashes =>
      hashes ≠ [] ∧ Countable hashes := by
  intro input hashes rest
  simp only [readHashTable, bind_eq_ok, throwIf_eq_ok, pure_eq_ok]
  constructor
  · rintro ⟨count, _, hcount, _, _, ⟨hne, rfl⟩, root, _, hroot, hs, _, hhs, _, _, ⟨hhead, rfl⟩, rfl,
      rfl⟩
    obtain ⟨-, xs, rfl, hxs⟩ := (reads_u32 ..).1 hcount
    obtain ⟨-, ys, rfl, hys⟩ := (reads_hash ..).1 hroot
    obtain ⟨⟨hlen, -⟩, zs, rfl, hzs⟩ := (reads_hash.collectN _ ..).1 hhs
    rw [not_ne_iff] at hhead
    refine ⟨⟨?_, ?_⟩, xs ++ (ys ++ zs), by simp, ?_⟩
    · rintro rfl
      exact hne (UInt32.toNat_inj.1 hlen.symm)
    · rw [Countable, hlen]
      exact count.toNat_lt
    · rw [InterfaceNode.hashTableLayout, hlen, ← hhead]
      exact hxs.append (hys.append hzs)
  · rintro ⟨⟨hne, hc⟩, used, rfl, hused⟩
    obtain ⟨xs, _, rfl, hxs, h⟩ := matches_append_iff.1 hused
    obtain ⟨ys, zs, rfl, hys, hzs⟩ := matches_append_iff.1 h
    have hlen : (UInt32.ofNat hashes.length).toNat = hashes.length := UInt32.toNat_ofNat_of_lt' hc
    refine ⟨UInt32.ofNat hashes.length, ys ++ zs ++ rest,
      (reads_u32 ..).2 ⟨trivial, xs, by simp, ?_⟩,
      (), _, ⟨?_, rfl⟩, hashes.headD zeroHash, zs ++ rest,
      (reads_hash ..).2 ⟨trivial, ys, by simp, hys⟩, hashes, rest,
      (reads_hash.collectN _ ..).2 ⟨⟨hlen.symm, by simp⟩, zs, rfl, hzs⟩, (), _, ⟨by simp, rfl⟩,
        rfl, rfl⟩
    · rwa [Layout.u32, hlen]
    · intro h0
      rw [h0] at hlen
      exact hne (List.length_eq_zero_iff.1 hlen.symm)

/-- `sif_read` up to the check for trailing data. -/
theorem reads_interface :
    Reads readInterface InterfaceNode.layout fun interface => interface.Decoded := by
  have htail (name : Bytes) (uuidNamespace : UuidBytes) (uuidName prefixStr : Bytes)
      (annotations : List AnnotationNode) (hashes : List Hash) : Reads
      (readRevisions
        { name, hasUuid := true, uuidNamespace, uuidName, hasPrefix := true, prefixStr,
          annotations }
        zeroHash 0 hashes)
      (fun interface => InterfaceNode.treesLayout interface.abiversions)
      fun interface => ((((((True ∧ interface.name = name) ∧
        interface.uuidNamespace = uuidNamespace) ∧ interface.uuidName = uuidName) ∧
        interface.prefixStr = prefixStr) ∧ interface.annotations = annotations) ∧
        interface.hashTable = hashes) ∧ interface.hasUuid = true ∧ interface.hasPrefix = true ∧
        (∀ node ∈ interface.abiversions, node.Encodable) ∧ VersionsFrom 0 interface.abiversions ∧
        interface.stampRevisions zeroHash interface.abiversions = interface.abiversions ∧
        interface.currentFuncid = nextFuncid 0 (functionsOf interface.abiversions) := by
    intro input interface rest
    rw [readRevisions_eq_ok_iff rfl]
    constructor
    · rintro ⟨nodes, rfl, hv, henc, hst, rfl, hused⟩
      refine ⟨⟨by simp [InterfaceNode.extend, InterfaceNode.hashTable], rfl, rfl, henc,
        hv, ?_, rfl⟩, hused⟩
      refine Eq.trans ?_ hst
      exact InterfaceNode.stampRevisions_congr (by rfl) _ _
    · rintro ⟨⟨⟨⟨⟨⟨⟨⟨-, rfl⟩, rfl⟩, rfl⟩, rfl⟩, rfl⟩, rfl⟩, hu, hp, henc, hv, hst, hf⟩, hused⟩
      refine ⟨interface.abiversions, ?_, hv, henc, ?_, rfl, hused⟩
      · cases interface
        simp_all [InterfaceNode.extend]
      · refine Eq.trans ?_ hst
        exact InterfaceNode.stampRevisions_congr (by rfl) _ _
  unfold readInterface
  refine (Reads.skip (reads_magic _) ⟨(), trivial⟩ <| Reads.expect reads_u32 trivial <|
    Reads.first InterfaceNode.name reads_string fun name =>
    Reads.step InterfaceNode.uuidNamespace reads_uuid fun uuidNamespace =>
    Reads.step InterfaceNode.uuidName reads_string fun uuidName =>
    Reads.step InterfaceNode.prefixStr reads_string fun prefixStr =>
    Reads.step InterfaceNode.annotations reads_annotations fun annotations =>
    Reads.step InterfaceNode.hashTable reads_hashTable fun hashes =>
    htail _ _ _ _ _ _).congr (fun interface h => ?_) fun interface => ?_
  · simp [InterfaceNode.layout, InterfaceNode.identityLayout]
  · have hne : interface.hashTable ≠ [] ↔ interface.abiversions ≠ [] := by
      simp [InterfaceNode.hashTable]
    have hc : Countable interface.hashTable ↔ Countable interface.abiversions := by
      simp [Countable, InterfaceNode.hashTable]
    rw [hne, hc]
    constructor
    · rintro ⟨-, h₁, -, h₂, h₃, h₄, ⟨h₅, h₆⟩, hu, hp, henc, hv, hst, hf⟩
      exact ⟨hu, hp, ⟨h₁, h₂, h₃, h₄⟩, h₅, h₆, henc, hv, hst, hf⟩
    · rintro ⟨hu, hp, ⟨h₁, h₂, h₃, h₄⟩, h₅, h₆, henc, hv, hst, hf⟩
      exact ⟨trivial, h₁, trivial, h₂, h₃, h₄, ⟨h₅, h₆⟩, hu, hp, henc, hv, hst, hf⟩

/-- **`sif_read` accepts exactly the bytes that match the layout of a decoded interface**, and
returns that interface. -/
theorem sifRead_eq_ok_iff (bs : Bytes) (interface : InterfaceNode) :
    sifRead bs = .ok interface ↔ interface.Decoded ∧ Matches interface.layout bs := by
  simp only [sifRead, except_bind_eq_ok]
  constructor
  · rintro ⟨⟨interface', rest⟩, hread, h⟩
    obtain ⟨hd, used, rfl, hused⟩ := (reads_interface ..).1 hread
    cases rest with
    | nil =>
      obtain rfl := except_pure_eq_ok.1 h
      exact ⟨hd, by rwa [List.append_nil]⟩
    | cons byte rest => simp at h
  · rintro ⟨hd, hm⟩
    exact ⟨(interface, []), (reads_interface ..).2 ⟨hd, bs, by simp, hm⟩, rfl⟩

end Sidlc
