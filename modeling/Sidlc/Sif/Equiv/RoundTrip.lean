import Sidlc.Sif.Equiv.Read

/-!
# Decoding undoes encoding

What `sif_write` puts down for an interface and its extensions, `sif_read` turns back into the
interface with all the revisions, stamped and without sizes.
-/

namespace Sidlc

open CellFormat StateExcept

/-! ### Stamping twice -/

namespace FunctionNode

@[simp] theorem bare_bare (node : FunctionNode) : node.bare.bare = node.bare := by
  simp [bare, Function.comp_def, ParameterNode.bare]

@[simp] theorem id_bare (node : FunctionNode) : node.bare.id = node.id :=
  rfl

end FunctionNode

@[simp] theorem StructNode.bare_bare (node : StructNode) : node.bare.bare = node.bare := by
  simp [bare, Function.comp_def, StructFieldNode.bare]

@[simp] theorem BitfieldNode.bare_bare (node : BitfieldNode) : node.bare.bare = node.bare := by
  simp [bare]

@[simp] theorem EnumNode.bare_bare (node : EnumNode) : node.bare.bare = node.bare := by
  simp [bare]

namespace AbiversionNode

@[simp] theorem bare_bare (node : AbiversionNode) : node.bare.bare = node.bare := by
  simp [bare, Function.comp_def]

@[simp] theorem bare_stamp (node : AbiversionNode) (p h : Hash) :
    (node.stamp p h).bare = node.bare :=
  node.bare_bare

@[simp] theorem stamp_stamp (node : AbiversionNode) (p h p' h' : Hash) :
    (node.stamp p h).stamp p' h' = node.stamp p' h' := by
  rw [stamp, bare_stamp, stamp]

end AbiversionNode

namespace InterfaceNode

variable (interface : InterfaceNode)

/-- Stamped revisions are left alone by stamping. -/
theorem stampRevisions_stampRevisions (previousHash : Hash) (nodes : List AbiversionNode) :
    interface.stampRevisions previousHash (interface.stampRevisions previousHash nodes)
      = interface.stampRevisions previousHash nodes := by
  induction nodes generalizing previousHash with
  | nil => rfl
  | cons node nodes ih =>
    simp only [stampRevisions, revisionHash_stamp, AbiversionNode.stamp_stamp, ih]

theorem map_bare_stampRevisions (previousHash : Hash) (nodes : List AbiversionNode) :
    (interface.stampRevisions previousHash nodes).map AbiversionNode.bare
      = nodes.map AbiversionNode.bare := by
  induction nodes generalizing previousHash with
  | nil => rfl
  | cons node nodes ih =>
    rw [stampRevisions, List.map_cons, List.map_cons, AbiversionNode.bare_stamp, ih]

/-- Stamping does not look at sizes and hashes. -/
theorem stampRevisions_map_bare (previousHash : Hash) (nodes : List AbiversionNode) :
    interface.stampRevisions previousHash (nodes.map AbiversionNode.bare)
      = interface.stampRevisions previousHash nodes := by
  induction nodes generalizing previousHash with
  | nil => rfl
  | cons node nodes ih =>
    have hstamp (p h : Hash) : node.bare.stamp p h = node.stamp p h := by
      rw [AbiversionNode.stamp, AbiversionNode.bare_bare, AbiversionNode.stamp]
    simp only [List.map_cons, stampRevisions, revisionHash_bare, hstamp, ih]

/-- The previous hashes are the hashes, one place later. -/
theorem map_previousHash_stampRevisions (previousHash : Hash) (nodes : List AbiversionNode)
    (hne : nodes ≠ []) :
    (interface.stampRevisions previousHash nodes).map AbiversionNode.previousHash = previousHash ::
      ((interface.stampRevisions previousHash nodes).map AbiversionNode.abiHash).dropLast := by
  induction nodes generalizing previousHash with
  | nil => exact absurd rfl hne
  | cons node nodes ih =>
    rw [stampRevisions, List.map_cons, List.map_cons]
    congr 1
    cases nodes with
    | nil => rfl
    | cons next nodes =>
      rw [ih _ (by simp), stampRevisions, List.map_cons, List.dropLast_cons_cons]
      rfl

theorem encodable_stampRevisions (previousHash : Hash) (nodes : List AbiversionNode) :
    (∀ node ∈ interface.stampRevisions previousHash nodes, node.Encodable)
      ↔ ∀ node ∈ nodes, node.Encodable := by
  induction nodes generalizing previousHash with
  | nil => simp [stampRevisions]
  | cons node nodes ih =>
    rw [stampRevisions, List.forall_mem_cons, List.forall_mem_cons, ih]
    exact and_congr_left fun _ => node.encodable_bare

theorem versionsFrom_stampRevisions (i : Nat) (previousHash : Hash)
    (nodes : List AbiversionNode) :
    VersionsFrom i (interface.stampRevisions previousHash nodes) ↔ VersionsFrom i nodes := by
  induction nodes generalizing i previousHash with
  | nil => rfl
  | cons node nodes ih => exact and_congr_right fun _ => ih ..

theorem functionsOf_stampRevisions (previousHash : Hash) (nodes : List AbiversionNode) :
    functionsOf (interface.stampRevisions previousHash nodes)
      = (functionsOf nodes).map FunctionNode.bare := by
  induction nodes generalizing previousHash with
  | nil => rfl
  | cons node nodes ih =>
    rw [stampRevisions, functionsOf, List.flatMap_cons, ← functionsOf, ih, functionsOf, functionsOf,
      List.flatMap_cons, List.map_append]
    rfl

end InterfaceNode

/-- Only the ids count for the running maximum. -/
theorem nextFuncid_map_bare (start : UInt32) (functions : List FunctionNode) :
    nextFuncid start (functions.map FunctionNode.bare) = nextFuncid start functions := by
  rw [nextFuncid, nextFuncid, List.foldl_map]
  rfl

/-! ### The round trip -/

@[simp] theorem InterfaceNode.length_abiversions_merged (interface : InterfaceNode)
    (extensions : List InterfaceNode) :
    (interface.merged extensions).abiversions.length
      = (allRevisions interface extensions).length :=
  interface.length_stampRevisions ..

/-- An interface that can be written, with its revisions numbered from `0`, is decoded. -/
theorem Writable.decoded_merged {interface : InterfaceNode} {extensions : List InterfaceNode}
    (h : Writable interface extensions)
    (hv : VersionsFrom 0 (allRevisions interface extensions)) :
    (interface.merged extensions).Decoded where
  hasUuid := h.hasUuid
  hasPrefix := h.hasPrefix
  identity := h.identity
  nonempty := by
    rw [ne_eq, ← List.length_eq_zero_iff, InterfaceNode.length_abiversions_merged,
      List.length_eq_zero_iff]
    exact h.nonempty
  countable := by
    rw [Countable, InterfaceNode.length_abiversions_merged]
    exact h.countable
  encodable := (interface.encodable_stampRevisions ..).2 h.encodable
  versions := (interface.versionsFrom_stampRevisions ..).2 hv
  stamped := by
    refine Eq.trans ?_ (interface.stampRevisions_stampRevisions zeroHash _)
    exact InterfaceNode.stampRevisions_congr (by rfl) _ _
  currentFuncid := by
    change nextFuncid 0 _ = nextFuncid 0 (functionsOf (interface.stampRevisions _ _))
    rw [InterfaceNode.functionsOf_stampRevisions, nextFuncid_map_bare]

/-- What was written is read back as the merged interface. -/
theorem sifRead_of_sifWrite {interface : InterfaceNode} {extensions : List InterfaceNode}
    {bs : Bytes} (h : sifWrite interface extensions = .ok bs)
    (hv : VersionsFrom 0 (allRevisions interface extensions)) :
    sifRead bs = .ok (interface.merged extensions) := by
  obtain ⟨hw, rfl⟩ := (sifWrite_eq_ok_iff ..).1 h
  exact (sifRead_eq_ok_iff ..).2 ⟨hw.decoded_merged hv, matches_encode _⟩

/-! ### Well-formed interfaces -/

/-- The revisions are numbered `0`, `1`, .... -/
def Contiguous (revisions : List AbiversionNode) : Prop :=
  ∀ (i : Nat) (node : AbiversionNode), revisions[i]? = some node → node.version.toNat = i

theorem Contiguous.versionsFrom {revisions : List AbiversionNode} (h : Contiguous revisions) :
    VersionsFrom 0 revisions := by
  have step (i : Nat) (nodes : List AbiversionNode)
      (hn : ∀ (j : Nat) (node : AbiversionNode), nodes[j]? = some node →
        node.version.toNat = i + j) : VersionsFrom i nodes := by
    induction nodes generalizing i with
    | nil => trivial
    | cons node nodes ih =>
      refine ⟨?_, ih (i + 1) fun j node' hj => ?_⟩
      · have h0 : node.version.toNat = i := hn 0 node rfl
        rw [← h0, UInt64.ofNat_toNat]
      · rw [hn (j + 1) node' hj]
        omega
  refine step 0 revisions fun j node hj => ?_
  rw [Nat.zero_add]
  exact h j node hj

/-- The interfaces and extensions of the round trip: an interface with identity, and revisions
numbered from `0`, whose strings and lists fit their counts and whose ids leave room for one
more. -/
structure WellFormed (interface : InterfaceNode) (extensions : List InterfaceNode) : Prop extends
    Writable interface extensions where
  contiguous : Contiguous (allRevisions interface extensions)
  ids : ∀ f ∈ functionsOf (allRevisions interface extensions), f.id.toNat < 2 ^ 32 - 1

/-- One more than the largest id, `0` when there is none. -/
theorem toNat_nextFuncid (functions : List FunctionNode)
    (h : ∀ f ∈ functions, f.id.toNat < 2 ^ 32 - 1) :
    (nextFuncid 0 functions).toNat = (functions.map (·.id.toNat)).max?.elim 0 (· + 1) := by
  have hsucc (f : FunctionNode) (hf : f.id.toNat < 2 ^ 32 - 1) :
      (f.id + 1).toNat = f.id.toNat + 1 := by
    rw [UInt32.toNat_add]
    exact Nat.mod_eq_of_lt (by change f.id.toNat + 1 < _; omega)
  have step (fs : List FunctionNode) (hfs : ∀ f ∈ fs, f.id.toNat < 2 ^ 32 - 1) (start : UInt32)
      (m : Nat) (hm : start.toNat = m + 1) :
      (nextFuncid start fs).toNat = (fs.map (·.id.toNat)).foldl max m + 1 := by
    induction fs generalizing start m with
    | nil => exact hm
    | cons f fs ih =>
      rw [List.forall_mem_cons] at hfs
      refine ih hfs.2 (max start (f.id + 1)) (max m f.id.toNat) ?_
      rw [UInt32.toNat_max, hsucc f hfs.1, hm]
      omega
  cases functions with
  | nil => rfl
  | cons f fs =>
    rw [List.forall_mem_cons] at h
    rw [List.map_cons, List.max?_cons']
    refine step fs h.2 _ _ ?_
    rw [UInt32.toNat_max, hsucc f h.1]
    exact Nat.zero_max _

/-- **Decode undoes encode.** Writing a well-formed interface with its extensions succeeds, and
reading the artifact gives back the identity and annotations, the revisions of all of them in order
with every encoded field, the hashes that were written, and the next free function id. -/
theorem sifRead_sifWrite (interface : InterfaceNode) (extensions : List InterfaceNode)
    (h : WellFormed interface extensions) :
    ∃ bs result, sifWrite interface extensions = .ok bs ∧ sifRead bs = .ok result ∧
      result.name = interface.name ∧ result.hasUuid = true ∧
      result.uuidNamespace = interface.uuidNamespace ∧ result.uuidName = interface.uuidName ∧
      result.hasPrefix = true ∧ result.prefixStr = interface.prefixStr ∧
      result.annotations = interface.annotations ∧
      result.abiversions.map AbiversionNode.bare
        = (allRevisions interface extensions).map AbiversionNode.bare ∧
      revisionHashes interface zeroHash (allRevisions interface extensions)
        = .ok (result.abiversions.map AbiversionNode.abiHash) ∧
      result.abiversions.map AbiversionNode.previousHash
        = zeroHash :: (result.abiversions.map AbiversionNode.abiHash).dropLast ∧
      result.currentFuncid.toNat
        = ((functionsOf (allRevisions interface extensions)).map (·.id.toNat)).max?.elim 0
            (· + 1) := by
  have hw := (sifWrite_eq_ok_iff interface extensions _).2 ⟨h.toWritable, rfl⟩
  refine ⟨_, interface.merged extensions, hw, sifRead_of_sifWrite hw h.contiguous.versionsFrom, rfl,
    h.hasUuid, rfl, rfl, h.hasPrefix, rfl, rfl, ?_, ?_, ?_, ?_⟩
  · exact interface.map_bare_stampRevisions ..
  · exact (revisionHashes_eq_ok_iff interface h.hasUuid ..).2 ⟨h.encodable, rfl⟩
  · exact interface.map_previousHash_stampRevisions _ _ h.nonempty
  · exact toNat_nextFuncid _ h.ids

/-- A first revision with one function, `f(in const u8 x)`. -/
def sampleRevision (version : UInt64) (id : UInt32) : AbiversionNode :=
  { version
    functions :=
      [{ name := ascii "f"
         annotations := []
         parameters := [{ direction := .IN, type := .named true 1 (ascii "u8"), name := ascii "x",
                          annotations := [] }]
         id }] }

def sampleInterface (revisions : List AbiversionNode) : InterfaceNode :=
  { name := ascii "sample"
    hasUuid := true
    uuidName := ascii "org.sample"
    hasPrefix := true
    prefixStr := ascii "smp"
    abiversions := revisions }

/-- A revision and an extension by another make the round trip, and the next id is `2`. -/
theorem sifRead_sifWrite_sample :
    ∃ bs result,
      sifWrite (sampleInterface [sampleRevision 0 0]) [sampleInterface [sampleRevision 1 1]]
        = .ok bs ∧
      sifRead bs = .ok result ∧ result.abiversions.length = 2 ∧ result.currentFuncid.toNat = 2 := by
  have hc : Contiguous (allRevisions (sampleInterface [sampleRevision 0 0])
      [sampleInterface [sampleRevision 1 1]]) := by
    rintro (_ | _ | i) node hi
    · obtain rfl := Option.some.inj hi
      rfl
    · obtain rfl := Option.some.inj hi
      rfl
    · simp [allRevisions, sampleInterface] at hi
  obtain ⟨bs, result, hw, hr, -, -, -, -, -, -, -, hb, -, -, hid⟩ :=
    sifRead_sifWrite (sampleInterface [sampleRevision 0 0])
      [sampleInterface [sampleRevision 1 1]]
      ⟨⟨rfl, rfl, by decide, by decide, by decide, by decide⟩, hc, by decide⟩
  refine ⟨bs, result, hw, hr, ?_, hid⟩
  have hlen := congrArg List.length hb
  rwa [List.length_map, List.length_map] at hlen

end Sidlc
