import Sidlc.Equiv.Metadata
import Sidlc.Sif.Equiv.Canonical

/-!
# Correctness of the compile command

A source is compiled to the artifact of its revisions; with a base, to the artifact of the revisions
of the base followed by its own (`compile_eq_some_iff`). What the base holds stays as it is, down to
the entries of the hash table (`compile_appends`).
-/

namespace Sidlc

open StateExcept CellFormat BinaryReader

/-! ### Numbers of revisions -/

theorem versionsAt_ofNat_iff {n : Nat} {nodes : List AbiversionNode} :
    Syntax.VersionsAt (UInt64.ofNat n) nodes ↔ VersionsFrom n nodes := by
  induction nodes generalizing n with
  | nil => rfl
  | cons node nodes ih =>
    have hnext : UInt64.ofNat n + 1 = UInt64.ofNat (n + 1) := by
      rw [UInt64.ofNat_add]
      rfl
    rw [Syntax.VersionsAt, VersionsFrom, hnext, ih]

theorem versionsFrom_append {n : Nat} {xs ys : List AbiversionNode} :
    VersionsFrom n (xs ++ ys) ↔ VersionsFrom n xs ∧ VersionsFrom (n + xs.length) ys := by
  induction xs generalizing n with
  | nil => simp [VersionsFrom]
  | cons x xs ih =>
    have hlength : n + 1 + xs.length = n + (x :: xs).length := by
      rw [List.length_cons]
      omega
    rw [List.cons_append, VersionsFrom, VersionsFrom, ih, hlength, and_assoc]

theorem versionsFrom_renumber {n : Nat} {id : UInt32} {nodes : List AbiversionNode} :
    VersionsFrom n (renumber id nodes) ↔ VersionsFrom n nodes := by
  induction nodes generalizing n id with
  | nil => rfl
  | cons node nodes ih => exact and_congr_right fun _ => ih

/-- In sixty-four bits the numbers are the places. -/
theorem VersionsFrom.toNat_version {n i : Nat} {nodes : List AbiversionNode}
    {node : AbiversionNode} (h : VersionsFrom n nodes) (hlength : n + nodes.length ≤ 2 ^ 64)
    (hi : nodes[i]? = some node) : node.version.toNat = n + i := by
  induction nodes generalizing n i with
  | nil => simp at hi
  | cons x xs ih =>
    rw [List.length_cons] at hlength
    cases i with
    | zero =>
      obtain rfl := Option.some.inj hi
      rw [h.1, UInt64.toNat_ofNat_of_lt' (by change n < 2 ^ 64; omega), Nat.add_zero]
    | succ i =>
      rw [ih h.2 (by omega) hi]
      omega

/-! ### Sources -/

theorem parseInterfaceFile_eq_some_iff {source : Bytes} {firstAbirevision : UInt64}
    {firstFuncid : UInt32} {interface : InterfaceNode} :
    parseInterfaceFile source firstAbirevision firstFuncid = .ok (some interface) ↔
      ∃ parsed, Parser.parse source firstAbirevision firstFuncid = .ok (some parsed) ∧
        normalizeInterfaceMetadata parsed = .ok interface := by
  rw [parseInterfaceFile, except_bind_eq_ok]
  constructor
  · rintro ⟨_ | parsed, hparse, h⟩
    · exact nomatch h
    · have htoOption : (normalizeInterfaceMetadata parsed).toOption = some interface :=
        Except.ok.inj h
      refine ⟨parsed, hparse, ?_⟩
      -- an error in the metadata is reported and turned into `none`
      cases hnormalize : normalizeInterfaceMetadata parsed with
      | error e =>
        rw [hnormalize] at htoOption
        exact nomatch htoOption
      | ok result =>
        rw [hnormalize] at htoOption
        rw [Option.some.inj htoOption]
  · rintro ⟨parsed, hparse, h⟩
    refine ⟨some parsed, hparse, ?_⟩
    show Except.ok (normalizeInterfaceMetadata parsed).toOption = _
    rw [h]
    rfl

/-- **The interface of a source file** has an identity and revisions that can be printed, with
contiguous numbers and ids. -/
theorem parseInterfaceFile_spec {source : Bytes} {n : Nat} {firstFuncid : UInt32}
    {interface : InterfaceNode}
    (h : parseInterfaceFile source (UInt64.ofNat n) firstFuncid = .ok (some interface)) :
    interface.Normalized ∧ ∃ nodes : List AbiversionNode, (∀ node ∈ nodes, node.Printable) ∧
      nodes.map AbiversionNode.bare = nodes ∧ VersionsFrom n nodes ∧
      interface.abiversions = renumber firstFuncid nodes := by
  obtain ⟨parsed, hparse, hnormalize⟩ := parseInterfaceFile_eq_some_iff.1 h
  obtain ⟨ts, hts, hdecl⟩ := Parser.parse_eq_some_iff.1 hparse
  obtain ⟨name, annotations, nodes, hname, hannotations, hprintable, hbare, hversions, rfl⟩ :=
    Syntax.interfaceDecl_spec (Syntax.printable_of_interfaceDecl hts hdecl) hdecl
  obtain ⟨hnormalized, -, habiversions, -⟩ :=
    normalizeInterfaceMetadata_spec hname hannotations hnormalize
  refine ⟨hnormalized, nodes, hprintable, hbare, versionsAt_ofNat_iff.1 hversions, ?_⟩
  rw [habiversions]
  show [] ++ renumber firstFuncid (nodes.map AbiversionNode.bare) = _
  rw [List.nil_append, hbare]

/-- The revisions of a source file are as an artifact carries them. -/
theorem map_bare_of_parseInterfaceFile {source : Bytes} {n : Nat} {firstFuncid : UInt32}
    {interface : InterfaceNode}
    (h : parseInterfaceFile source (UInt64.ofNat n) firstFuncid = .ok (some interface)) :
    interface.abiversions.map AbiversionNode.bare = interface.abiversions := by
  obtain ⟨-, nodes, -, hbare, -, habiversions⟩ := parseInterfaceFile_spec h
  rw [habiversions, map_bare_renumber, hbare]

/-! ### The command -/

theorem catchRuntimeError_eq_some_iff {α : Type} {x : Except Exn α} {a : α} :
    catchRuntimeError x = .ok (some a) ↔ x = .ok a := by
  unfold catchRuntimeError
  split <;> simp

theorem compile_none_eq_some_iff {source artifact : Bytes} :
    compile none source = .ok (some artifact) ↔
      ∃ interface, parseInterfaceFile source 0 0 = .ok (some interface) ∧
        sifWrite interface [] = .ok artifact := by
  show compileFirst source = _ ↔ _
  rw [compileFirst, except_bind_eq_ok]
  constructor
  · rintro ⟨_ | interface, hparse, h⟩
    · exact nomatch h
    · exact ⟨interface, hparse, catchRuntimeError_eq_some_iff.1 h⟩
  · rintro ⟨interface, hparse, h⟩
    exact ⟨some interface, hparse, catchRuntimeError_eq_some_iff.2 h⟩

theorem compile_some_eq_some_iff {base source artifact : Bytes} :
    compile (some base) source = .ok (some artifact) ↔
      ∃ interface extension, sifRead base = .ok interface ∧
        parseInterfaceFile source (UInt64.ofNat interface.abiversions.length)
          interface.currentFuncid = .ok (some extension) ∧
        validateExtensionInterface interface extension = .ok () ∧
        sifWrite interface [extension] = .ok artifact := by
  show compileExtension base source = _ ↔ _
  rw [compileExtension, except_bind_eq_ok]
  constructor
  · -- every stage that fails leaves no artifact
    rintro ⟨_ | interface, hread, h⟩
    · exact nomatch h
    obtain ⟨_ | extension, hparse, h⟩ := except_bind_eq_ok.1 h
    · exact nomatch h
    refine ⟨interface, extension, catchRuntimeError_eq_some_iff.1 hread, hparse, ?_⟩
    cases hvalid : validateExtensionInterface interface extension with
    | error e =>
      simp only [hvalid] at h
      exact nomatch h
    | ok u =>
      simp only [hvalid] at h
      exact ⟨rfl, catchRuntimeError_eq_some_iff.1 h⟩
  · rintro ⟨interface, extension, hread, hparse, hvalid, h⟩
    refine ⟨some interface, catchRuntimeError_eq_some_iff.2 hread,
      except_bind_eq_ok.2 ⟨some extension, hparse, ?_⟩⟩
    simp only [hvalid]
    exact catchRuntimeError_eq_some_iff.2 h

theorem allRevisions_singleton (interface extension : InterfaceNode) :
    allRevisions interface [extension] = interface.abiversions ++ extension.abiversions := by
  rw [allRevisions, List.flatMap_singleton]

/-- What an artifact without a base is the artifact of. -/
theorem compile_none_spec {source artifact : Bytes}
    (h : compile none source = .ok (some artifact)) :
    ∃ interface, parseInterfaceFile source 0 0 = .ok (some interface) ∧
      (interface.merged []).Decoded ∧ artifact = encode (interface.merged []).layout := by
  obtain ⟨interface, hparse, hwrite⟩ := compile_none_eq_some_iff.1 h
  obtain ⟨hwritable, rfl⟩ := (sifWrite_eq_ok_iff ..).1 hwrite
  obtain ⟨-, nodes, -, -, hversions, habiversions⟩ := parseInterfaceFile_spec (n := 0) hparse
  refine ⟨interface, hparse, hwritable.decoded_merged ?_, rfl⟩
  rw [allRevisions_nil, habiversions, versionsFrom_renumber]
  exact hversions

/-- What an artifact with a base is the artifact of. -/
theorem compile_some_spec {base source artifact : Bytes} {interface : InterfaceNode}
    (hread : sifRead base = .ok interface) (h : compile (some base) source = .ok (some artifact)) :
    ∃ extension, parseInterfaceFile source (UInt64.ofNat interface.abiversions.length)
        interface.currentFuncid = .ok (some extension) ∧
      validateExtensionInterface interface extension = .ok () ∧
      (interface.merged [extension]).Decoded ∧
      artifact = encode (interface.merged [extension]).layout := by
  obtain ⟨interface', extension, hread', hparse, hvalid, hwrite⟩ := compile_some_eq_some_iff.1 h
  obtain rfl : interface' = interface := Except.ok.inj (hread'.symm.trans hread)
  obtain ⟨hwritable, rfl⟩ := (sifWrite_eq_ok_iff ..).1 hwrite
  obtain ⟨hdecoded, -⟩ := (sifRead_eq_ok_iff ..).1 hread
  obtain ⟨-, nodes, -, -, hversions, habiversions⟩ := parseInterfaceFile_spec hparse
  refine ⟨extension, hparse, hvalid, hwritable.decoded_merged ?_, rfl⟩
  rw [allRevisions_singleton, habiversions, versionsFrom_append, versionsFrom_renumber,
    Nat.zero_add]
  exact ⟨hdecoded.versions, hversions⟩

/-- An extension with the identity of the base is valid. -/
theorem validateExtensionInterface_withRevisions {interface : InterfaceNode}
    (huuid : interface.hasUuid = true) (hpre : interface.hasPrefix = true)
    (abiversions : List AbiversionNode) (currentFuncid : UInt32) :
    validateExtensionInterface interface (interface.withRevisions abiversions currentFuncid)
      = .ok () := by
  simp [validateExtensionInterface, InterfaceNode.withRevisions, huuid, hpre,
    interfaceAnnotationKey]

/-- A source with the identity of the base and encodable revisions extends it. -/
theorem compile_some_of_parse {base source : Bytes} {interface : InterfaceNode}
    (hread : sifRead base = .ok interface) {abiversions : List AbiversionNode}
    {currentFuncid : UInt32}
    (hparse : parseInterfaceFile source (UInt64.ofNat interface.abiversions.length)
      interface.currentFuncid = .ok (some (interface.withRevisions abiversions currentFuncid)))
    (hencodable : ∀ node ∈ abiversions, node.Encodable)
    (hcountable : interface.abiversions.length + abiversions.length < 2 ^ 32) :
    compile (some base) source = .ok (some (encode
      (interface.merged [interface.withRevisions abiversions currentFuncid]).layout)) := by
  obtain ⟨hdecoded, -⟩ := (sifRead_eq_ok_iff ..).1 hread
  have hall : allRevisions interface [interface.withRevisions abiversions currentFuncid]
      = interface.abiversions ++ abiversions := allRevisions_singleton ..
  refine compile_some_eq_some_iff.2 ⟨interface, _, hread, hparse,
    validateExtensionInterface_withRevisions hdecoded.hasUuid hdecoded.hasPrefix .., ?_⟩
  -- the base has been read, so only the new revisions are to be checked
  refine (sifWrite_eq_ok_iff ..).2
    ⟨⟨hdecoded.hasUuid, hdecoded.hasPrefix, hdecoded.identity, ?_, ?_, ?_⟩, rfl⟩
  · rw [hall]
    exact fun h => hdecoded.nonempty (List.append_eq_nil_iff.1 h).1
  · rw [hall, Countable, List.length_append]
    exact hcountable
  · rw [hall, List.forall_mem_append]
    exact ⟨hdecoded.encodable, hencodable⟩

/-! ### Sources that were printed -/

/-- What the text of an interface denotes: the interface without sizes and hashes, its functions
numbered from the first id. -/
def InterfaceNode.reparsed (interface : InterfaceNode) (firstFuncid : UInt32) : InterfaceNode :=
  interface.withRevisions (renumber firstFuncid (interface.abiversions.map AbiversionNode.bare))
    (firstFuncid + UInt32.ofNat (functionsOf interface.abiversions).length)

/-- **A printed interface is parsed again.** -/
theorem parseInterfaceFile_decompileInterface {interface : InterfaceNode} (h : interface.Normalized)
    (hprintable : ∀ node ∈ interface.abiversions, node.Printable) {n : Nat}
    (hversions : VersionsFrom n interface.abiversions) (firstFuncid : UInt32) :
    parseInterfaceFile (decompileInterface interface) (UInt64.ofNat n) firstFuncid
      = .ok (some (interface.reparsed firstFuncid)) := by
  have hinterface : interface.Printable :=
    ⟨h.name, h.uuidName, h.prefixStr, fun node hnode => (h.annotations node hnode).1, hprintable⟩
  refine parseInterfaceFile_eq_some_iff.2
    ⟨_, parse_decompileInterface hinterface hversions firstFuncid, ?_⟩
  rw [InterfaceNode.declare_eq_withRevisions, normalizeInterfaceMetadata_withRevisions,
    normalizeInterfaceMetadata_header h]
  rfl

/-! ### The hash table of a file -/

/-- The root hash and the hash table, from the bytes of an artifact. -/
def readFileHashes : Reader (Hash × List Hash) := do
  readMagic kSifMagic
  let _ ← u32
  let _ ← string
  let _ ← uuid
  let _ ← string
  let _ ← string
  let _ ← readAnnotations
  let revisionCount ← u32
  let rootRevisionHash ← hash
  let revisionHashes ← collectN hash revisionCount.toNat
  return (rootRevisionHash, revisionHashes)

/-- The file has the root hash and the hash table. -/
def HasHashes (file : Bytes) (rootRevisionHash : Hash) (revisionHashes : List Hash) : Prop :=
  ∃ rest, readFileHashes file = .ok ((rootRevisionHash, revisionHashes), rest)

/-- The hashes of a decoded interface are those in its file. -/
theorem hasHashes_of_matches {interface : InterfaceNode} (h : interface.Decoded) {file : Bytes}
    (hfile : Matches interface.layout file) :
    HasHashes file (interface.hashTable.headD zeroHash) interface.hashTable := by
  simp only [InterfaceNode.layout, InterfaceNode.identityLayout, InterfaceNode.hashTableLayout,
    matches_append_iff] at hfile
  obtain ⟨magic, _, rfl, hmagic, version, _, rfl, hversion, _, _, rfl,
    ⟨name, _, rfl, hname, namespaceBytes, _, rfl, hnamespace, uuidName, _, rfl, huuidName,
      prefixStr, annotations, rfl, hprefixStr, hannotations⟩,
    _, trees, rfl, ⟨count, _, rfl, hcount, root, table, rfl, hroot, htable⟩, -⟩ := hfile
  have hlength : interface.hashTable.length < 2 ^ 32 := by
    rw [InterfaceNode.hashTable, List.length_map]
    exact h.countable
  have htoNat : (UInt32.ofNat interface.hashTable.length).toNat = interface.hashTable.length :=
    UInt32.toNat_ofNat_of_lt' hlength
  obtain ⟨h₁, h₂, h₃, h₄⟩ := h.identity
  refine ⟨trees, ?_⟩
  -- from field to field, as the reader goes through the file
  simp only [readFileHashes, bind_eq_ok, pure_eq_ok]
  simp only [List.append_assoc]
  refine ⟨(), _, (reads_magic _ _ _ _).2 ⟨trivial, magic, rfl, hmagic⟩,
    kSifFormatVersion, _, (reads_u32 ..).2 ⟨trivial, version, rfl, hversion⟩,
    interface.name, _, (reads_string ..).2 ⟨h₁, name, rfl, hname⟩,
    interface.uuidNamespace, _, (reads_uuid ..).2 ⟨trivial, namespaceBytes, rfl, hnamespace⟩,
    interface.uuidName, _, (reads_string ..).2 ⟨h₂, uuidName, rfl, huuidName⟩,
    interface.prefixStr, _, (reads_string ..).2 ⟨h₃, prefixStr, rfl, hprefixStr⟩,
    interface.annotations, _, (reads_annotations ..).2 ⟨h₄, annotations, rfl, hannotations⟩,
    UInt32.ofNat interface.hashTable.length, _, (reads_u32 ..).2 ⟨trivial, count, rfl, ?_⟩,
    _, _, (reads_hash ..).2 ⟨trivial, root, rfl, hroot⟩,
    _, _, (reads_hash.collectN _ ..).2 ⟨⟨htoNat.symm, by simp⟩, table, rfl, htable⟩, rfl, rfl⟩
  rwa [Layout.u32, htoNat]

/-! ### Histories are append-only -/

/-- The extension does not reach back. -/
theorem abiversions_merged_singleton {interface : InterfaceNode} (h : interface.Decoded)
    (extension : InterfaceNode) :
    (interface.merged [extension]).abiversions = interface.abiversions ++
      interface.stampRevisions (interface.lastHash zeroHash interface.abiversions)
        extension.abiversions := by
  show interface.stampRevisions zeroHash (allRevisions interface [extension]) = _
  rw [allRevisions_singleton, InterfaceNode.stampRevisions_append, h.stamped]

/-- **An extension only appends.** The output is accepted again; the root hash and the entries of
the base stay in front of its hash table, the decoded revisions of the base stay in front of its
revisions, and behind them are those of the source, with the next numbers. -/
theorem compile_appends (base source artifact : Bytes) (interface : InterfaceNode)
    (hbase : sifRead base = .ok interface)
    (h : compile (some base) source = .ok (some artifact)) :
    ∃ (result extension : InterfaceNode) (root : Hash) (hashes extensionHashes : List Hash)
      (revisions : List AbiversionNode),
      sifRead artifact = .ok result ∧
      HasHashes base root hashes ∧ hashes.length = interface.abiversions.length ∧
      HasHashes artifact root (hashes ++ extensionHashes) ∧
      result.abiversions = interface.abiversions ++ revisions ∧
      parseInterfaceFile source (UInt64.ofNat interface.abiversions.length)
        interface.currentFuncid = .ok (some extension) ∧
      revisions.map AbiversionNode.bare = extension.abiversions ∧
      ∀ (i : Nat) (node : AbiversionNode), revisions[i]? = some node →
        node.version.toNat = interface.abiversions.length + i := by
  obtain ⟨hdecoded, hmatches⟩ := (sifRead_eq_ok_iff ..).1 hbase
  obtain ⟨extension, hparse, -, hresult, rfl⟩ := compile_some_spec hbase h
  have habiversions := abiversions_merged_singleton hdecoded extension
  set revisions := interface.stampRevisions
    (interface.lastHash zeroHash interface.abiversions) extension.abiversions with hrevisions
  have hhashes : (interface.merged [extension]).hashTable
      = interface.hashTable ++ revisions.map AbiversionNode.abiHash := by
    rw [InterfaceNode.hashTable, habiversions, List.map_append, InterfaceNode.hashTable]
  -- the first revision stays the first one
  have hroot : (interface.merged [extension]).hashTable.headD zeroHash
      = interface.hashTable.headD zeroHash := by
    have hne : interface.hashTable ≠ [] := by
      rw [InterfaceNode.hashTable, ne_eq, List.map_eq_nil_iff]
      exact hdecoded.nonempty
    rw [hhashes]
    cases htable : interface.hashTable with
    | nil => exact absurd htable hne
    | cons hash hashes => rfl
  have hfile := hasHashes_of_matches hresult (matches_encode _)
  rw [hroot, hhashes] at hfile
  refine ⟨interface.merged [extension], extension, _, _, _, revisions,
    (sifRead_eq_ok_iff ..).2 ⟨hresult, matches_encode _⟩, hasHashes_of_matches hdecoded hmatches,
    List.length_map _, hfile, habiversions, hparse, ?_, fun i node hi => ?_⟩
  · rw [hrevisions, InterfaceNode.map_bare_stampRevisions, map_bare_of_parseInterfaceFile hparse]
  · -- the revisions of the whole are numbered, so those behind the base are
    have hversions : VersionsFrom interface.abiversions.length revisions := by
      have hall := hresult.versions
      rw [habiversions, versionsFrom_append, Nat.zero_add] at hall
      exact hall.2
    have hcount : (interface.merged [extension]).abiversions.length < 2 ^ 32 := hresult.countable
    rw [habiversions, List.length_append] at hcount
    exact hversions.toNat_version (by omega) hi

/-- An interface like the sample can be printed. -/
theorem normalized_sampleInterface (revisions : List AbiversionNode) :
    (sampleInterface revisions).Normalized where
  name := by
    have h : IsIdentifier (ascii "sample") := by decide +kernel
    exact h
  hasUuid := rfl
  uuidName := by
    have h : ∀ c ∈ ascii "org.sample", c ≠ chr '"' := by decide +kernel
    exact h
  hasPrefix := rfl
  prefixStr := by
    have h : ∀ c ∈ ascii "smp", c ≠ chr '"' := by decide +kernel
    exact h
  annotations := List.forall_mem_nil _

theorem printable_sampleRevision (version : UInt64) (id : UInt32) :
    (sampleRevision version id).Printable := by
  have hf : IsIdentifier (ascii "f") := by decide +kernel
  have hx : IsIdentifier (ascii "x") := by decide +kernel
  have hu8 : IsIdentifier (ascii "u8") := by decide +kernel
  refine ⟨rfl, ?_⟩
  rintro d (_ | ⟨_, ⟨⟩⟩)
  refine ⟨hf, List.forall_mem_nil _, ?_⟩
  rintro node (_ | ⟨_, ⟨⟩⟩)
  exact ⟨hx, List.forall_mem_nil _, hu8⟩

/-- The sample, extended by a revision like its own. -/
theorem compile_appends_sample :
    ∃ artifact result revisions,
      compile (some (encode sampleDecoded.layout))
        (decompileInterface (sampleInterface [sampleRevision 1 0])) = .ok (some artifact) ∧
      sifRead artifact = .ok result ∧
        result.abiversions = sampleDecoded.abiversions ++ revisions := by
  have hread : sifRead (encode sampleDecoded.layout) = .ok sampleDecoded :=
    (sifRead_eq_ok_iff ..).2 ⟨decoded_sampleDecoded, matches_encode _⟩
  have hprintable :
      ∀ node ∈ (sampleInterface [sampleRevision 1 0]).abiversions, node.Printable := by
    intro node hnode
    rw [List.mem_singleton.1 hnode]
    exact printable_sampleRevision ..
  have hcompile := compile_some_of_parse hread
    (parseInterfaceFile_decompileInterface (normalized_sampleInterface _) hprintable (n := 1)
      ⟨rfl, trivial⟩ sampleDecoded.currentFuncid)
    (encodable_renumber.2 (encodable_map_bare.2 (by decide))) (by decide)
  obtain ⟨result, -, -, -, -, revisions, hresult, -, -, -, habiversions, -⟩ :=
    compile_appends _ _ _ _ hread hcompile
  exact ⟨_, result, revisions, hcompile, hresult, habiversions⟩

end Sidlc
