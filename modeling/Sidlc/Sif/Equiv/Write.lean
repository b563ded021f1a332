import Sidlc.Sif.Layout

/-!
# The writers put down the layouts

Every `write_*` function succeeds exactly on encodable nodes and then writes the canonical bytes of
the layout. `sifWrite_eq_ok_iff` assembles them: `sif_write` writes the artifact of the stamped
revisions.
-/

namespace Sidlc

open CellFormat LittleEndian StateExcept

/-! ### `BinaryWriter` -/

namespace BinaryWriter

/-- The shifting and masking loop cuts a word into its little-endian bytes. -/
theorem wordBytes_eq_bytesLE {w : Nat} (n : Nat) (value : BitVec w) (hw : 8 ≤ w) :
    wordBytes n value = bytesLE n value.toNat := by
  rw [wordBytes, bytesLE_eq_map_range]
  refine List.map_congr_left fun i _ => ?_
  apply UInt8.toNat_inj.1
  have hmask : (0xff#w).toNat = 2 ^ 8 - 1 := by
    rw [BitVec.toNat_ofNat]
    refine Nat.mod_eq_of_lt ?_
    exact Nat.lt_of_lt_of_le (by norm_num : 255 < 2 ^ 8) (Nat.pow_le_pow_right (by norm_num) hw)
  rw [UInt8.toNat_ofBitVec, BitVec.toNat_setWidth, BitVec.toNat_and, BitVec.toNat_ushiftRight,
    hmask, Nat.and_two_pow_sub_one_eq_mod, UInt8.toNat_ofNat', Nat.mod_mod, Nat.mul_comm]

theorem writes_u8 (value : UInt8) : Writes (u8 value) (Layout.u8 value) True :=
  Writes.pure _

theorem writes_u32 (value : UInt32) : Writes (u32 value) (Layout.u32 value) True := by
  rw [u32, wordBytes_eq_bytesLE 4 _ (by decide)]
  exact Writes.pure _

theorem writes_u64 (value : UInt64) : Writes (u64 value) (Layout.u64 value) True := by
  rw [u64, wordBytes_eq_bytesLE 8 _ (by decide)]
  exact Writes.pure _

theorem writes_bytes (data : Bytes) : Writes (bytes data) (literal data) True :=
  Writes.pure _

/-- The 32-bit count of a length. -/
theorem writes_length (n : Nat) :
    Writes (u32 (UInt32.ofNat n)) (literal (bytesLE 4 n)) True := by
  refine (writes_u32 _).congr ?_ Iff.rfl
  rw [Layout.u32, UInt32.toNat_ofNat', ← bytesLE_mod 4 n]
  rfl

/-- A writer guarded by a size check. -/
theorem writes_guard {w : Writer} {cs : List Cell} {n : Nat} {e : Exn} (h : Writes w cs True) :
    Writes (if n > 4294967295 then .error e else w) cs (n < 2 ^ 32) := by
  intro bs
  split_ifs with hn
  · refine iff_of_false (by simp) fun hlt => ?_
    omega
  · rw [h bs]
    exact and_congr_left fun _ => iff_of_true trivial (by omega)

theorem writes_string (value : Bytes) :
    Writes (string value) (Layout.string value) (Countable value) := by
  have h : Writes (u32 (UInt32.ofNat value.length) ++ bytes value
      ++ .ok (List.replicate (padding value.length) 0)) (Layout.string value) True := by
    refine (((writes_length _).append (writes_bytes value)).append (Writes.pure _)).congr ?_
      (by simp)
    simp [Layout.string, literal]
  exact writes_guard h

theorem writes_count {α : Type} (xs : List α) :
    Writes (count xs) (literal (bytesLE 4 xs.length)) (Countable xs) :=
  writes_guard (writes_length _)

/-- A count and the elements. -/
theorem writes_counted {α : Type} {w : α → Writer} {layout : α → List Cell}
    {encodable : α → Prop} (hw : ∀ x, Writes (w x) (layout x) (encodable x)) (xs : List α) :
    Writes (count xs ++ writeEach w xs) (Layout.counted layout xs) (AllEncodable encodable xs) :=
  (writes_count xs).append (Writes.each hw xs)

end BinaryWriter

open BinaryWriter

/-! ### The nodes -/

theorem writes_expression (node : ExpressionNode) :
    Writes (writeExpression node) node.layout node.Encodable := by
  cases node with
  | string value => exact (writes_u8 _).append_of_true (writes_string value)
  | number value => exact (writes_u8 _).append_of_true (writes_u64 value)
  | identifier name => exact (writes_u8 _).append_of_true (writes_string name)

theorem writes_annotation (node : AnnotationNode) :
    Writes (writeAnnotationNode node) node.layout node.Encodable :=
  (writes_string node.name).append (writes_counted writes_expression node.args)

theorem writes_annotations (nodes : List AnnotationNode) :
    Writes (writeAnnotations nodes) (Layout.annotations nodes) (AnnotationsEncodable nodes) :=
  writes_counted writes_annotation nodes

/-- The flag is written as the canonical byte of its cell. -/
theorem writes_flag (c : Bool) : Writes (u8 (if c then 1 else 0)) [.flag c] True := by
  intro bs
  cases c <;> simp [u8, encode, Cell.canonical, eq_comm]

theorem writes_type (node : TypeNode) : Writes (writeType node) node.layout node.Encodable := by
  induction node with
  | named c n name =>
    exact (writes_flag c).append_of_true ((writes_u8 _).append_of_true (writes_string name))
  | ptr c n innerType ih =>
    exact (writes_flag c).append_of_true ((writes_u8 _).append_of_true ih)
  | array c n innerType ih =>
    exact (writes_flag c).append_of_true ((writes_u8 _).append_of_true ih)

theorem writes_parameter (node : ParameterNode) :
    Writes (writeParameter node) node.layout node.Encodable :=
  (writes_u8 _).append_of_true ((writes_annotations _).append
    ((writes_type _).append (writes_string _)))

theorem writes_function (node : FunctionNode) :
    Writes (writeFunction node) node.layout node.Encodable :=
  (writes_u32 _).append_of_true ((writes_string _).append ((writes_annotations _).append
    (writes_counted writes_parameter _)))

theorem writes_structField (node : StructFieldNode) :
    Writes (writeStructField node) node.layout node.Encodable :=
  (writes_type _).append (writes_string _)

theorem writes_struct (node : StructNode) :
    Writes (writeStruct node) node.layout node.Encodable :=
  (writes_string _).append ((writes_annotations _).append (writes_counted writes_structField _))

theorem writes_bitfieldField (node : BitfieldFieldNode) :
    Writes (writeBitfieldField node) node.layout node.Encodable :=
  ((writes_string _).append (writes_u64 _)).congr rfl (and_iff_left trivial)

theorem writes_bitfield (node : BitfieldNode) :
    Writes (writeBitfield node) node.layout node.Encodable :=
  (writes_string _).append ((writes_annotations _).append ((writes_type _).append
    (writes_counted writes_bitfieldField _)))

theorem writes_enumMember (node : EnumMemberNode) :
    Writes (writeEnumMember node) node.layout node.Encodable :=
  (writes_string _).append ((writes_u64 _).append_of_true (writes_annotations _))

theorem writes_enum (node : EnumNode) : Writes (writeEnum node) node.layout node.Encodable :=
  (writes_string _).append ((writes_annotations _).append ((writes_type _).append
    (writes_counted writes_enumMember _)))

theorem writes_revisionMembers (node : AbiversionNode) :
    Writes (writeRevisionMembers node) node.membersLayout node.Encodable :=
  (writes_annotations _).append ((writes_counted writes_bitfield _).append
    ((writes_counted writes_enum _).append ((writes_counted writes_struct _).append
      (writes_counted writes_function _))))

theorem writes_revisionTree (node : AbiversionNode) (previousHash : Hash) :
    Writes (writeRevisionTree node previousHash) (node.layout previousHash) node.Encodable :=
  (writes_u64 _).append_of_true ((writes_bytes _).append_of_true (writes_revisionMembers _))

theorem writes_interfaceIdentity (interface : InterfaceNode) :
    Writes (writeInterfaceIdentity interface) interface.identityLayout
      (interface.hasUuid = true ∧ interface.hasPrefix = true ∧ interface.IdentityEncodable) := by
  have h : Writes (string interface.name ++ (bytes interface.uuidNamespace.toList ++
      (string interface.uuidName ++ (string interface.prefixStr ++
        writeAnnotations interface.annotations)))) interface.identityLayout
      interface.IdentityEncodable :=
    (writes_string _).append ((writes_bytes _).append_of_true ((writes_string _).append
      ((writes_string _).append (writes_annotations _))))
  intro bs
  rw [writeInterfaceIdentity]
  cases interface.hasUuid <;> cases interface.hasPrefix <;> simp [h bs]

/-! ### The hash chain -/

theorem computeInterfaceUuid_eq_ok_iff (interface : InterfaceNode) (value : UuidBytes) :
    computeInterfaceUuid interface = .ok value ↔
      interface.hasUuid = true ∧ value = interface.uuid := by
  rw [computeInterfaceUuid]
  cases interface.hasUuid <;> simp [InterfaceNode.uuid, eq_comm]

/-- Bytes handed to the hasher one by one are hashed like one chunk. -/
theorem foldl_update_eq_update (sha : Sha256) (xs ys : Bytes) :
    (xs.foldl (fun sha byte => Sha256.update sha [byte]) sha).update ys
    = sha.update (xs ++ ys) := by
  induction xs generalizing sha with
  | nil => rfl
  | cons x xs ih => rw [List.foldl_cons, ih, Sha256.update_append, List.singleton_append]; rfl

/-- The hash of a revision is the digest of its preimage, and there is one when the interface has a
UUID and the revision can be written. -/
theorem computeRevisionHash_eq_ok_iff (interface : InterfaceNode) (node : AbiversionNode)
    (previousHash h : Hash) :
    computeRevisionHash interface node previousHash = .ok h ↔
      interface.hasUuid = true ∧ node.Encodable ∧ h = interface.revisionHash node previousHash := by
  have hdomain : string (ascii "strata.sif.revision.v0")
      = .ok (encode (Layout.string (ascii "strata.sif.revision.v0"))) :=
    (writes_string _).ok (by unfold Countable; decide)
  simp only [computeRevisionHash, hdomain, except_bind_eq_ok, except_pure_eq_ok,
    computeInterfaceUuid_eq_ok_iff, (writes_revisionTree node previousHash) _, Except.ok.injEq]
  constructor
  · rintro ⟨u, ⟨hu, rfl⟩, tree, ⟨hnode, rfl⟩, d, rfl, rfl⟩
    refine ⟨hu, hnode, ?_⟩
    rw [foldl_update_eq_update, Sha256.update_append, List.append_assoc]
    rfl
  · rintro ⟨hu, hnode, rfl⟩
    refine ⟨_, ⟨hu, rfl⟩, _, ⟨hnode, rfl⟩, _, rfl, ?_⟩
    rw [foldl_update_eq_update, Sha256.update_append, List.append_assoc]
    rfl

/-- The hashes computed by the first loop of `sif_write` are those of the stamped revisions. -/
theorem revisionHashes_eq_ok_iff (interface : InterfaceNode) (hu : interface.hasUuid = true)
    (previousHash : Hash) (nodes : List AbiversionNode) (hashes : List Hash) :
    revisionHashes interface previousHash nodes = .ok hashes ↔
      (∀ node ∈ nodes, node.Encodable) ∧
        hashes = (interface.stampRevisions previousHash nodes).map AbiversionNode.abiHash := by
  induction nodes generalizing previousHash hashes with
  | nil => simp [revisionHashes, except_pure_eq_ok, InterfaceNode.stampRevisions]
  | cons node nodes ih =>
    simp only [revisionHashes, except_bind_eq_ok, except_pure_eq_ok, ih,
      computeRevisionHash_eq_ok_iff, hu, true_and, List.forall_mem_cons,
      InterfaceNode.stampRevisions, List.map_cons]
    constructor
    · rintro ⟨h, ⟨hnode, rfl⟩, hs, ⟨hnodes, rfl⟩, rfl⟩
      exact ⟨⟨hnode, hnodes⟩, rfl⟩
    · rintro ⟨⟨hnode, hnodes⟩, rfl⟩
      exact ⟨_, ⟨hnode, rfl⟩, _, ⟨hnodes, rfl⟩, rfl⟩

/-- Without a UUID the first revision already fails. -/
theorem revisionHashes_ne_ok (interface : InterfaceNode) (hu : interface.hasUuid = false)
    (previousHash : Hash) {nodes : List AbiversionNode} (hne : nodes ≠ []) (hashes : List Hash) :
    revisionHashes interface previousHash nodes ≠ .ok hashes := by
  obtain ⟨node, nodes, rfl⟩ := List.exists_cons_of_ne_nil hne
  simp [revisionHashes, except_bind_eq_ok, computeRevisionHash_eq_ok_iff, hu]

/-! ### `sif_write` -/

theorem writes_revisionTrees (interface : InterfaceNode) (previousHash : Hash)
    (nodes : List AbiversionNode) :
    Writes
      (writeRevisionTrees previousHash
        (nodes.zip ((interface.stampRevisions previousHash nodes).map AbiversionNode.abiHash)))
      (InterfaceNode.treesLayout (interface.stampRevisions previousHash nodes))
      (∀ node ∈ nodes, node.Encodable) := by
  induction nodes generalizing previousHash with
  | nil => exact (Writes.pure []).congr rfl (by simp)
  | cons node nodes ih =>
    refine ((writes_revisionTree node previousHash).append (ih _)).congr ?_ (by simp)
    rw [InterfaceNode.stampRevisions, InterfaceNode.treesLayout, InterfaceNode.treesLayout,
      List.flatMap_cons]
    congr 1
    exact (AbiversionNode.layout_bare node previousHash).symm

theorem writes_hashTable (hashes : List Hash) :
    Writes (count hashes ++ (bytes (hashes.headD zeroHash).toList ++
      writeEach (fun hash => bytes hash.toList) hashes))
      (InterfaceNode.hashTableLayout hashes) (Countable hashes) :=
  ((writes_count hashes).append ((writes_bytes _).append_of_true
    (Writes.each (fun hash : Hash => writes_bytes hash.toList) hashes))).congr rfl (by simp)

/-- The interface that `sif_read` makes of the artifact of `interface` and its extensions. -/
def InterfaceNode.merged (interface : InterfaceNode) (extensions : List InterfaceNode) :
    InterfaceNode :=
  let revisions := allRevisions interface extensions
  { interface with
    abiversions := interface.stampRevisions zeroHash revisions
    currentFuncid := nextFuncid 0 (functionsOf revisions) }

theorem writes_artifact (interface : InterfaceNode) (extensions : List InterfaceNode) :
    Writes
      (writeArtifact interface (allRevisions interface extensions)
        (interface.merged extensions).hashTable)
      (interface.merged extensions).layout
      ((interface.hasUuid = true ∧ interface.hasPrefix = true ∧ interface.IdentityEncodable) ∧
        Countable (interface.merged extensions).hashTable ∧
        ∀ node ∈ allRevisions interface extensions, node.Encodable) :=
  (writes_bytes _).append_of_true ((writes_u32 _).append_of_true
    ((writes_interfaceIdentity interface).append ((writes_hashTable _).append
      (writes_revisionTrees interface zeroHash _))))

/-- The conditions under which `sif_write` succeeds. -/
structure Writable (interface : InterfaceNode) (extensions : List InterfaceNode) : Prop where
  hasUuid : interface.hasUuid = true
  hasPrefix : interface.hasPrefix = true
  identity : interface.IdentityEncodable
  nonempty : allRevisions interface extensions ≠ []
  countable : Countable (allRevisions interface extensions)
  encodable : ∀ node ∈ allRevisions interface extensions, node.Encodable

/-- **`sif_write` writes the artifact of the stamped revisions**, and fails on an interface without
identity, without revisions, or with a string or list that is too long. -/
theorem sifWrite_eq_ok_iff (interface : InterfaceNode) (extensions : List InterfaceNode)
    (bs : Bytes) :
    sifWrite interface extensions = .ok bs ↔
      Writable interface extensions ∧ bs = encode (interface.merged extensions).layout := by
  have hcount : Countable (interface.merged extensions).hashTable ↔
      Countable (allRevisions interface extensions) := by
    simp [Countable, InterfaceNode.hashTable, InterfaceNode.merged]
  rw [sifWrite]
  by_cases hne : allRevisions interface extensions = []
  · simp only [hne, List.isEmpty_nil, if_true, reduceCtorEq, false_iff, not_and]
    exact fun h => absurd hne h.nonempty
  have hemp : (allRevisions interface extensions).isEmpty = false := by simpa using hne
  simp only [hemp, Bool.false_eq_true, if_false, except_bind_eq_ok]
  cases hu : interface.hasUuid with
  | false =>
    refine iff_of_false ?_ fun h => absurd (hu.symm.trans h.1.hasUuid) (by simp)
    rintro ⟨hashes, hh, -⟩
    exact revisionHashes_ne_ok interface hu zeroHash hne hashes hh
  | true =>
    simp only [revisionHashes_eq_ok_iff interface hu]
    constructor
    · rintro ⟨hashes, ⟨henc, rfl⟩, hbs⟩
      obtain ⟨⟨⟨-, hp, hid⟩, hc, -⟩, rfl⟩ := (writes_artifact interface extensions bs).1 hbs
      exact ⟨⟨hu, hp, hid, hne, hcount.1 hc, henc⟩, rfl⟩
    · rintro ⟨h, rfl⟩
      exact ⟨_, ⟨h.encodable, rfl⟩, (writes_artifact interface extensions _).2
        ⟨⟨⟨hu, h.hasPrefix, h.identity⟩, hcount.2 h.countable, h.encodable⟩, rfl⟩⟩

end Sidlc
