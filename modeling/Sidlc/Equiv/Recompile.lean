import Sidlc.Equiv.Histories
import Sidlc.Equiv.PrintedTrees

/-!
# Correctness of decompiling

The text that `sif_decompile` writes for a compiled artifact compiles to an artifact of the same
interface with its functions numbered `0`, `1`, .... That is the artifact itself exactly when its
functions are numbered so (`compile_sifDecompile_iff`).
-/

namespace Sidlc

open CellFormat

/-! ### Printed interfaces -/

section Printed

variable {interface : InterfaceNode} (h : interface.Normalized)
  (hprintable : ∀ node ∈ interface.abiversions, node.Printable) (hwritable : Writable interface [])

include h hprintable hwritable

/-- The text of an interface that can be printed and written compiles, to the artifact of what it
denotes. -/
theorem compile_decompileInterface (hversions : VersionsFrom 0 interface.abiversions) :
    ∃ artifact, compile none (decompileInterface interface) = .ok (some artifact) ∧
      Artifact artifact ((interface.reparsed 0).merged []) := by
  have habiversions : (interface.reparsed 0).abiversions
      = renumber 0 (interface.abiversions.map AbiversionNode.bare) := rfl
  have hparse : parseInterfaceFile (decompileInterface interface) 0 0
      = .ok (some (interface.reparsed 0)) :=
    parseInterfaceFile_decompileInterface (n := 0) h hprintable hversions 0
  -- numbering the functions anew changes nothing that the writer checks
  have hreparsed : Writable (interface.reparsed 0) [] := by
    obtain ⟨huuid, hpre, hidentity, hne, hcountable, hencodable⟩ := hwritable
    rw [allRevisions_nil] at hne hcountable hencodable
    refine ⟨huuid, hpre, hidentity, ?_, ?_, ?_⟩
    · rw [allRevisions_nil, habiversions, ne_eq, ← List.length_eq_zero_iff, length_renumber,
        List.length_map, List.length_eq_zero_iff]
      exact hne
    · rw [allRevisions_nil, habiversions, Countable, length_renumber, List.length_map]
      exact hcountable
    · rw [allRevisions_nil, habiversions, encodable_renumber, encodable_map_bare]
      exact hencodable
  have hcompile : compile none (decompileInterface interface)
      = .ok (some (encode ((interface.reparsed 0).merged []).layout)) :=
    compile_none_eq_some_iff.2 ⟨_, hparse, (sifWrite_eq_ok_iff ..).2 ⟨hreparsed, rfl⟩⟩
  obtain ⟨parsed, -, hparsed, -, hartifact⟩ := artifact_of_compile_none hcompile
  obtain rfl : interface.reparsed 0 = parsed :=
    Option.some.inj (Except.ok.inj (hparse.symm.trans hparsed))
  exact ⟨_, hcompile, hartifact⟩

end Printed

/-! ### One artifact -/

/-- What compiling the text of an interface keeps of its revisions. -/
theorem map_bare_reparsed (interface : InterfaceNode) :
    ((interface.reparsed 0).merged []).abiversions.map AbiversionNode.bare
      = renumber 0 (interface.abiversions.map AbiversionNode.bare) := by
  show (InterfaceNode.stampRevisions _ _ (allRevisions _ [])).map _ = _
  rw [InterfaceNode.map_bare_stampRevisions, allRevisions_nil]
  show (renumber 0 _).map _ = _
  rw [map_bare_renumber, List.map_map]
  simp [Function.comp_def]

namespace Artifact

variable {artifact : Bytes} {interface : InterfaceNode}

/-- **An artifact comes back from its text exactly when its functions are numbered from `0`.** -/
theorem compile_decompileInterface_iff (h : Artifact artifact interface) :
    compile none (decompileInterface interface) = .ok (some artifact) ↔
      NumberedFrom 0 (functionsOf interface.abiversions) := by
  obtain ⟨recompiled, hcompile, hrecompiled⟩ := compile_decompileInterface h.normalized h.printable
    h.decoded.writable h.decoded.versions
  have hbare := map_bare_reparsed interface
  -- the compiler numbers the functions in order
  have hnumbered : NumberedFrom 0 (functionsOf ((interface.reparsed 0).merged []).abiversions) := by
    rw [← numberedFrom_functionsOf_map_bare, hbare, functionsOf_renumber,
      numberedFrom_renumberFunctions_iff]
    exact .inr rfl
  have hself : Artifact artifact
      (interface.withRevisions interface.abiversions interface.currentFuncid) := h
  have hmerged : Artifact recompiled (interface.withRevisions
      ((interface.reparsed 0).merged []).abiversions _) := hrecompiled
  rw [hcompile, Except.ok.injEq, Option.some.injEq]
  refine eq_iff_numberedFrom hmerged hself hnumbered ?_
  rw [hbare, renumber_renumber]

theorem sifDecompile (h : Artifact artifact interface) :
    Sidlc.sifDecompile interface = .ok (decompileInterface interface) := by
  rw [Sidlc.sifDecompile, h.normalized.hasUuid, h.normalized.hasPrefix]
  rfl

end Artifact

/-! ### Histories -/

/-- **Compiling undoes decompiling exactly on the histories whose ids fit.** The text of a compiled
artifact is accepted in any case, but where an extension goes on from an id that has got stuck, it
compiles to another artifact. -/
theorem compile_sifDecompile_iff (sources : List Bytes) (artifact : Bytes)
    (h : Compiled sources artifact) :
    ∃ interface text, sifRead artifact = .ok interface ∧ sifDecompile interface = .ok text ∧
      (∃ parsed, parseInterfaceFile text 0 0 = .ok (some parsed)) ∧
      (compile none text = .ok (some artifact) ↔ IdsFit sources) := by
  obtain ⟨interface, ns, hartifact, hns, -, hnumbered⟩ := h.spec
  have hparse := parseInterfaceFile_decompileInterface (n := 0) hartifact.normalized
    hartifact.printable hartifact.decoded.versions 0
  refine ⟨interface, _, hartifact.sifRead, hartifact.sifDecompile, ⟨_, hparse⟩, ?_⟩
  rw [hartifact.compile_decompileInterface_iff, hnumbered, idsFit_iff hns]

/-! ### Texts of one identity -/

/-- Revisions that the text of an interface can declare, from the number `first` on. -/
structure Declarable (first : Nat) (nodes : List AbiversionNode) : Prop where
  printable : ∀ node ∈ nodes, node.Printable
  encodable : ∀ node ∈ nodes, node.Encodable
  versions : VersionsFrom first nodes

instance VersionsFrom.decidable : (i : Nat) → (nodes : List AbiversionNode) →
    Decidable (VersionsFrom i nodes)
  | _, [] => isTrue trivial
  | i, node :: nodes =>
    have := decidable (i + 1) nodes
    inferInstanceAs (Decidable (node.version = UInt64.ofNat i ∧ VersionsFrom (i + 1) nodes))

instance (first : Nat) (nodes : List AbiversionNode) : Decidable (Declarable first nodes) :=
  decidable_of_iff (_ ∧ _ ∧ _)
    ⟨fun ⟨h₁, h₂, h₃⟩ => ⟨h₁, h₂, h₃⟩, fun h => ⟨h.printable, h.encodable, h.versions⟩⟩

theorem declarable_append {first : Nat} {older newer : List AbiversionNode} :
    Declarable first (older ++ newer) ↔
      Declarable first older ∧ Declarable (first + older.length) newer := by
  constructor
  · rintro ⟨hprintable, hencodable, hversions⟩
    rw [List.forall_mem_append] at hprintable hencodable
    rw [versionsFrom_append] at hversions
    exact ⟨⟨hprintable.1, hencodable.1, hversions.1⟩, ⟨hprintable.2, hencodable.2, hversions.2⟩⟩
  · rintro ⟨⟨h₁, h₂, h₃⟩, ⟨i₁, i₂, i₃⟩⟩
    exact ⟨List.forall_mem_append.2 ⟨h₁, i₁⟩, List.forall_mem_append.2 ⟨h₂, i₂⟩,
      versionsFrom_append.2 ⟨h₃, i₃⟩⟩

theorem Artifact.declarable {artifact : Bytes} {interface : InterfaceNode}
    (h : Artifact artifact interface) : Declarable 0 interface.abiversions :=
  ⟨h.printable, h.decoded.encodable, h.decoded.versions⟩

section Identity

variable {interface : InterfaceNode}

/-- The identity is that of the interface, whatever the revisions are. -/
theorem InterfaceNode.Normalized.withRevisions (h : interface.Normalized)
    (abiversions : List AbiversionNode) (currentFuncid : UInt32) :
    (interface.withRevisions abiversions currentFuncid).Normalized := by
  obtain ⟨h₁, h₂, h₃, h₄, h₅, h₆⟩ := h
  exact ⟨h₁, h₂, h₃, h₄, h₅, h₆⟩

/-- The revisions of an artifact are what stamping makes of them, whatever their sizes and hashes
are. -/
theorem Artifact.abiversions_eq {artifact : Bytes} {revisions nodes : List AbiversionNode}
    {next : UInt32} (h : Artifact artifact (interface.withRevisions revisions next))
    (hbare : revisions.map AbiversionNode.bare = nodes) :
    revisions = interface.stampRevisions zeroHash nodes := by
  rw [← hbare, InterfaceNode.stampRevisions_map_bare]
  exact h.decoded.stamped.symm.trans (InterfaceNode.stampRevisions_congr (by rfl) _ _)

/-- The first revisions of an identity. -/
theorem InterfaceNode.Normalized.compile_first (h : interface.Normalized)
    (hidentity : interface.IdentityEncodable) {older : List AbiversionNode}
    (holder : Declarable 0 older) (hne : older ≠ []) (hlength : older.length < 2 ^ 32) :
    ∃ (base : Bytes) (revisions : List AbiversionNode) (next : UInt32),
      compile none (decompileInterface (interface.withRevisions older 0)) = .ok (some base) ∧
      Artifact base (interface.withRevisions revisions next) ∧
      revisions.map AbiversionNode.bare = renumber 0 (older.map AbiversionNode.bare) := by
  have hwritable : Writable (interface.withRevisions older 0) [] := by
    refine ⟨h.hasUuid, h.hasPrefix, hidentity, ?_, ?_, ?_⟩
    · rw [allRevisions_nil]
      exact hne
    · rw [allRevisions_nil]
      exact hlength
    · rw [allRevisions_nil]
      exact holder.encodable
  obtain ⟨base, hcompile, hbase⟩ := compile_decompileInterface (h.withRevisions ..)
    holder.printable hwritable holder.versions
  exact ⟨base, _, _, hcompile, hbase, map_bare_reparsed (interface.withRevisions older 0)⟩

/-- The text of newer revisions extends an artifact of the identity. -/
theorem Artifact.compile_next {base : Bytes} {revisions newer : List AbiversionNode}
    {next : UInt32} (hbase : Artifact base (interface.withRevisions revisions next))
    (hnewer : Declarable revisions.length newer)
    (hlength : revisions.length + newer.length < 2 ^ 32) :
    ∃ (whole : Bytes) (all : List AbiversionNode) (next' : UInt32),
      compile (some base) (decompileInterface (interface.withRevisions newer 0))
        = .ok (some whole) ∧
      Artifact whole (interface.withRevisions all next') ∧
      all.map AbiversionNode.bare = revisions.map AbiversionNode.bare
        ++ renumber next (newer.map AbiversionNode.bare) := by
  have hnormalized : (interface.withRevisions newer 0).Normalized := by
    obtain ⟨h₁, h₂, h₃, h₄, h₅, h₆⟩ := hbase.normalized
    exact ⟨h₁, h₂, h₃, h₄, h₅, h₆⟩
  have hparse := parseInterfaceFile_decompileInterface hnormalized hnewer.printable
    hnewer.versions next
  have hcompile := compile_some_of_parse hbase.sifRead hparse
    (encodable_renumber.2 (encodable_map_bare.2 hnewer.encodable)) (by
      show revisions.length + (renumber _ (newer.map _)).length < _
      rwa [length_renumber, List.length_map])
  obtain ⟨extension, -, hextension, -, hwhole⟩ := artifact_of_compile_some hbase hcompile
  obtain rfl := Option.some.inj (Except.ok.inj (hparse.symm.trans hextension))
  refine ⟨_, _, _, hcompile, hwhole, ?_⟩
  show (InterfaceNode.stampRevisions _ _ (allRevisions _ _)).map _ = _
  rw [InterfaceNode.map_bare_stampRevisions, allRevisions_singleton, List.map_append]
  show _ ++ (renumber next (newer.map _)).map AbiversionNode.bare = _
  rw [map_bare_renumber, List.map_map]
  simp only [Function.comp_def, AbiversionNode.bare_bare]
  rfl

end Identity

/-! ### Sources of the sample -/

def sampleSource (nodes : List AbiversionNode) : Bytes :=
  decompileInterface (sampleInterface nodes)

/-- Revisions of the sample, with the ids and the hashes that the compiler gives them. -/
def sampleCompiled (nodes : List AbiversionNode) : InterfaceNode :=
  (sampleInterface []).withRevisions ((sampleInterface []).stampRevisions zeroHash nodes)
    (nextFuncid 0 (functionsOf nodes))

/-- An artifact of the sample is known from its revisions without sizes and hashes. -/
theorem artifact_sampleCompiled {artifact : Bytes} {revisions nodes : List AbiversionNode}
    {next : UInt32} (h : Artifact artifact ((sampleInterface []).withRevisions revisions next))
    (hbare : revisions.map AbiversionNode.bare = nodes) :
    Artifact artifact (sampleCompiled nodes) := by
  have hrevisions := h.abiversions_eq hbare
  have hnext : next = nextFuncid 0 (functionsOf nodes) := by
    have hcurrent : next = nextFuncid 0 (functionsOf revisions) := h.decoded.currentFuncid
    rw [hcurrent, ← hbare, functionsOf_map_bare, nextFuncid_map_bare]
  rw [sampleCompiled, ← hrevisions, ← hnext]
  exact h

/-- The artifact of a source of the sample. -/
theorem compile_sampleSource (older : List AbiversionNode) (holder : Declarable 0 older)
    (hne : older ≠ []) (hlength : older.length < 2 ^ 32) :
    ∃ artifact, compile none (sampleSource older) = .ok (some artifact) ∧
      Artifact artifact (sampleCompiled (renumber 0 (older.map AbiversionNode.bare))) := by
  have hidentity : (sampleInterface []).IdentityEncodable := by decide
  obtain ⟨artifact, revisions, next, hcompile, hartifact, hbare⟩ :=
    (normalized_sampleInterface []).compile_first hidentity holder hne hlength
  exact ⟨artifact, hcompile, artifact_sampleCompiled hartifact hbare⟩

/-- Two sources of the sample, the second of which extends the first. -/
theorem compiled_sampleSources (older newer : List AbiversionNode) (holder : Declarable 0 older)
    (hne : older ≠ []) (hnewer : Declarable older.length newer)
    (hlength : older.length + newer.length < 2 ^ 32) :
    ∃ artifact, Compiled [sampleSource older, sampleSource newer] artifact ∧
      Artifact artifact (sampleCompiled (renumber 0 (older.map AbiversionNode.bare) ++
        renumber (nextFuncid 0 (functionsOf (renumber 0 (older.map AbiversionNode.bare))))
          (newer.map AbiversionNode.bare))) := by
  obtain ⟨base, hbase, hbaseArtifact⟩ := compile_sampleSource older holder hne (by omega)
  -- stamping keeps the number of revisions, and what is known of them
  set nodes := renumber 0 (older.map AbiversionNode.bare) with hnodes
  have hbare : ((sampleInterface []).stampRevisions zeroHash nodes).map AbiversionNode.bare
      = nodes := by
    rw [InterfaceNode.map_bare_stampRevisions, hnodes, map_bare_renumber, List.map_map]
    simp only [Function.comp_def, AbiversionNode.bare_bare]
  have hcount : ((sampleInterface []).stampRevisions zeroHash nodes).length = older.length := by
    rw [InterfaceNode.length_stampRevisions, hnodes, length_renumber, List.length_map]
  rw [← hcount] at hnewer hlength
  obtain ⟨artifact, all, next, hcompile, hartifact, hall⟩ :=
    Artifact.compile_next hbaseArtifact hnewer hlength
  rw [hbare] at hall
  exact ⟨artifact, (Compiled.first hbase).extend hcompile, artifact_sampleCompiled hartifact hall⟩

/-- An interface with one block of these declarations. -/
def sampleTree (ds : List Declaration) : Syntax.Tree where
  name := ascii "sample"
  annotations := (sampleInterface []).identityAnnotations
  blocks := [{ version := 0, declarations := ds, leftover := [] }]

theorem printable_sampleTree {ds : List Declaration} (h : ∀ d ∈ ds, d.Printable ∧ d.bare = d) :
    (sampleTree ds).Printable where
  name := (normalized_sampleInterface []).name
  annotations := by
    have hnormalized := normalized_sampleInterface []
    have hprintable : (sampleInterface []).Printable :=
      ⟨hnormalized.name, hnormalized.uuidName, hnormalized.prefixStr, List.forall_mem_nil _,
        List.forall_mem_nil _⟩
    exact hprintable.identityAnnotations
  blocks := by
    refine List.forall_mem_singleton.2 ⟨h, List.forall_mem_nil _⟩

/-- The text of such a tree is compiled. -/
theorem compile_sampleTree {ds : List Declaration}
    (h : ∀ d ∈ ds, d.Printable ∧ d.bare = d)
    (hencodable : ∀ node ∈ ((sampleTree ds).interface 0).abiversions, node.Encodable) :
    ∃ artifact, compile none (sampleTree ds).print = .ok (some artifact) := by
  have hprintable := printable_sampleTree h
  have hparse : Parser.parse (sampleTree ds).print 0 0 = .ok (some ((sampleTree ds).interface 0)) :=
    hprintable.parse_print ⟨rfl, trivial⟩ 0
  -- apart from its one block, the interface is the header of the sample
  have hheader : (sampleTree ds).interface 0
      = ((sampleInterface []).header 0).withRevisions ((sampleTree ds).interface 0).abiversions
          ((sampleTree ds).interface 0).currentFuncid := by
    have hblock : (sampleTree ds).interface 0 = Syntax.Block.elaborate
        ((sampleInterface []).header 0) { version := 0, declarations := ds, leftover := [] } := rfl
    rw [hblock, Syntax.Block.elaborate, Syntax.Block.interface_revision]
    rfl
  have hfile : parseInterfaceFile (sampleTree ds).print 0 0
      = .ok (some ((sampleInterface []).withRevisions ((sampleTree ds).interface 0).abiversions
          ((sampleTree ds).interface 0).currentFuncid)) := by
    refine parseInterfaceFile_eq_some_iff.2 ⟨_, hparse, ?_⟩
    rw [hheader, normalizeInterfaceMetadata_withRevisions,
      normalizeInterfaceMetadata_header (normalized_sampleInterface [])]
    rfl
  have hidentity : (sampleInterface []).IdentityEncodable := by decide
  have hwritable : Writable ((sampleInterface []).withRevisions
      ((sampleTree ds).interface 0).abiversions
      ((sampleTree ds).interface 0).currentFuncid) [] := by
    refine ⟨rfl, rfl, hidentity, ?_, ?_, ?_⟩
    · rw [allRevisions_nil]
      exact List.cons_ne_nil _ _
    · rw [allRevisions_nil]
      exact Nat.one_lt_two_pow (by decide)
    · rw [allRevisions_nil]
      exact hencodable
  exact ⟨_, compile_none_eq_some_iff.2
    ⟨_, hfile, (sifWrite_eq_ok_iff ..).2 ⟨hwritable, rfl⟩⟩⟩

/-! ### A history with as many functions as one likes -/

/-- A revision of `n` functions without parameters. -/
def repeatedRevision (version : UInt64) (n : Nat) : AbiversionNode :=
  { version
    functions :=
      List.replicate n { name := ascii "f", annotations := [], parameters := [], id := 0 } }

/-- Revisions of so many functions each, numbered from `first` on. -/
def repeatedRevisions : Nat → List Nat → List AbiversionNode
  | _, [] => []
  | first, n :: ns => repeatedRevision (UInt64.ofNat first) n :: repeatedRevisions (first + 1) ns

def repeatedSource (first : Nat) (ns : List Nat) : Bytes :=
  decompileInterface (sampleInterface (repeatedRevisions first ns))

theorem length_repeatedRevisions (first : Nat) (ns : List Nat) :
    (repeatedRevisions first ns).length = ns.length := by
  induction ns generalizing first with
  | nil => rfl
  | cons n ns ih => rw [repeatedRevisions, List.length_cons, ih, List.length_cons]

theorem repeatedRevisions_append (first : Nat) (ms ns : List Nat) :
    repeatedRevisions first (ms ++ ns)
      = repeatedRevisions first ms ++ repeatedRevisions (first + ms.length) ns := by
  induction ms generalizing first with
  | nil => rfl
  | cons m ms ih =>
    have hlength : first + 1 + ms.length = first + (m :: ms).length := by
      rw [List.length_cons]
      omega
    rw [List.cons_append, repeatedRevisions, repeatedRevisions, ih, hlength, List.cons_append]

theorem length_functionsOf_repeatedRevisions (first : Nat) (ns : List Nat) :
    (functionsOf (repeatedRevisions first ns)).length = ns.sum := by
  induction ns generalizing first with
  | nil => rfl
  | cons n ns ih =>
    rw [repeatedRevisions, functionsOf_cons, List.length_append, ih, List.sum_cons,
      repeatedRevision, List.length_replicate]

theorem versionsFrom_repeatedRevisions (first : Nat) (ns : List Nat) :
    VersionsFrom first (repeatedRevisions first ns) := by
  induction ns generalizing first with
  | nil => trivial
  | cons n ns ih => exact ⟨rfl, ih (first + 1)⟩

theorem printable_repeatedRevisions (first : Nat) (ns : List Nat) :
    ∀ node ∈ repeatedRevisions first ns, node.Printable := by
  have hf : IsIdentifier (ascii "f") := by decide +kernel
  induction ns generalizing first with
  | nil => exact List.forall_mem_nil _
  | cons n ns ih =>
    rw [repeatedRevisions, List.forall_mem_cons]
    refine ⟨(AbiversionNode.printable_iff _).2 ⟨rfl, List.forall_mem_nil _, List.forall_mem_nil _,
      List.forall_mem_nil _, ?_⟩, ih (first + 1)⟩
    intro f hmem
    rw [List.eq_of_mem_replicate hmem]
    exact ⟨hf, List.forall_mem_nil _, List.forall_mem_nil _⟩

theorem encodable_repeatedRevisions (first : Nat) {ns : List Nat} (h : ∀ n ∈ ns, n < 2 ^ 32) :
    ∀ node ∈ repeatedRevisions first ns, node.Encodable := by
  induction ns generalizing first with
  | nil => exact List.forall_mem_nil _
  | cons n ns ih =>
    rw [List.forall_mem_cons] at h
    rw [repeatedRevisions, List.forall_mem_cons]
    refine ⟨⟨allEncodable_nil _, allEncodable_nil _, allEncodable_nil _,
      allEncodable_nil _, ?_, ?_⟩, ih (first + 1) h.2⟩
    · rw [Countable, repeatedRevision, List.length_replicate]
      exact h.1
    · intro f hmem
      rw [List.eq_of_mem_replicate hmem]
      decide

theorem declarable_repeatedRevisions (first : Nat) {ns : List Nat} (h : ∀ n ∈ ns, n < 2 ^ 32) :
    Declarable first (repeatedRevisions first ns) :=
  ⟨printable_repeatedRevisions first ns, encodable_repeatedRevisions first h,
    versionsFrom_repeatedRevisions first ns⟩

/-- A source of that kind compiles, to an artifact of the sample with so many revisions. -/
theorem compile_repeatedSource (ms : List Nat) (hne : ms ≠ []) (hms : ∀ m ∈ ms, m < 2 ^ 32)
    (hlength : ms.length < 2 ^ 32) :
    ∃ (artifact : Bytes) (abiversions : List AbiversionNode) (currentFuncid : UInt32),
      compile none (repeatedSource 0 ms) = .ok (some artifact) ∧ abiversions.length = ms.length ∧
      Artifact artifact ((sampleInterface []).withRevisions abiversions currentFuncid) := by
  have hrevisions : repeatedRevisions 0 ms ≠ [] := by
    rw [ne_eq, ← List.length_eq_zero_iff, length_repeatedRevisions]
    exact fun h => hne (List.length_eq_zero_iff.1 h)
  obtain ⟨artifact, hcompile, hartifact⟩ :=
    compile_sampleSource _ (declarable_repeatedRevisions 0 hms) hrevisions
      (by rwa [length_repeatedRevisions])
  refine ⟨artifact, _, _, hcompile, ?_, hartifact⟩
  rw [InterfaceNode.length_stampRevisions, length_renumber, List.length_map,
    length_repeatedRevisions]

/-- A source of that kind declares its functions. -/
theorem declares_repeatedSource (first : Nat) (ns : List Nat) :
    Declares (repeatedSource first ns) ns.sum := by
  have hparse := parseInterfaceFile_decompileInterface (normalized_sampleInterface _)
    (printable_repeatedRevisions first ns) (versionsFrom_repeatedRevisions first ns) 0
  have hdeclares := declares_of_parseInterfaceFile hparse
  have hcount : (functionsOf
    ((sampleInterface (repeatedRevisions first ns)).reparsed 0).abiversions).length
      = ns.sum := by
    show (functionsOf (renumber 0
      ((repeatedRevisions first ns).map AbiversionNode.bare))).length = _
    rw [functionsOf_renumber, length_renumberFunctions, length_functionsOf_map_bare,
      length_functionsOf_repeatedRevisions]
  rwa [hcount] at hdeclares

/-- Two sources of that kind, the second of which extends the first. -/
theorem compiled_repeatedSources (ms ns : List Nat) (first : Nat) (hfirst : ms.length = first)
    (hne : ms ≠ []) (hms : ∀ m ∈ ms, m < 2 ^ 32) (hns : ∀ n ∈ ns, n < 2 ^ 32)
    (hlength : ms.length + ns.length < 2 ^ 32) :
    ∃ artifact, Compiled [repeatedSource 0 ms, repeatedSource first ns] artifact := by
  have hrevisions : repeatedRevisions 0 ms ≠ [] := by
    rw [ne_eq, ← List.length_eq_zero_iff, length_repeatedRevisions]
    exact fun h => hne (List.length_eq_zero_iff.1 h)
  have hnewer : Declarable (repeatedRevisions 0 ms).length (repeatedRevisions first ns) := by
    rw [length_repeatedRevisions, hfirst]
    exact declarable_repeatedRevisions first hns
  obtain ⟨artifact, h, -⟩ := compiled_sampleSources _ _ (declarable_repeatedRevisions 0 hms)
    hrevisions hnewer (by rwa [length_repeatedRevisions, length_repeatedRevisions])
  exact ⟨artifact, h⟩

/-- A revision of `2 ^ 32 - 1` functions, another of one, and an extension by one function more: its
id is `2 ^ 32 - 1`, but `0` when the text of the artifact is compiled. -/
theorem not_compile_sifDecompile_repeatedSources :
    ∃ sources artifact interface text, Compiled sources artifact ∧
      sifRead artifact = .ok interface ∧ sifDecompile interface = .ok text ∧
      compile none text ≠ .ok (some artifact) := by
  obtain ⟨artifact, h⟩ := compiled_repeatedSources [2 ^ 32 - 1, 1] [1] 2 rfl (by simp) (by decide)
    (by decide) (by decide)
  obtain ⟨interface, ns, hartifact, hns, -, hnumbered⟩ := h.spec
  refine ⟨_, artifact, interface, _, h, hartifact.sifRead, hartifact.sifDecompile, ?_⟩
  have hdeclares : List.Forall₂ Declares
      [repeatedSource 0 [2 ^ 32 - 1, 1], repeatedSource 2 [1]] [2 ^ 32, 1] :=
    .cons (declares_repeatedSource 0 _) (.cons (declares_repeatedSource 2 _) .nil)
  have hfit : ¬ IdsFitFrom 0 [2 ^ 32, 1] := by
    rintro ⟨-, h, -⟩
    exact absurd h (by decide)
  rw [ne_eq, hartifact.compile_decompileInterface_iff, hnumbered, ← idsFit_iff hns,
    idsFit_iff hdeclares]
  exact hfit

/-- With one function in each revision the ids fit. -/
theorem compile_sifDecompile_repeatedSources :
    ∃ artifact interface text,
      Compiled [repeatedSource 0 [1, 1], repeatedSource 2 [1]] artifact ∧
      sifRead artifact = .ok interface ∧ sifDecompile interface = .ok text ∧
      compile none text = .ok (some artifact) := by
  obtain ⟨artifact, h⟩ := compiled_repeatedSources [1, 1] [1] 2 rfl (by simp) (by decide)
    (by decide)
    (by decide)
  have hdeclares : List.Forall₂ Declares [repeatedSource 0 [1, 1], repeatedSource 2 [1]] [2, 1] :=
    .cons (declares_repeatedSource 0 _) (.cons (declares_repeatedSource 2 _) .nil)
  have hfit : IdsFitFrom 0 [2, 1] := ⟨.inr (.inl (by decide)), .inr (.inl (by decide)), trivial⟩
  obtain ⟨interface, text, hread, htext, -, hiff⟩ := compile_sifDecompile_iff _ artifact h
  exact ⟨artifact, interface, text, h, hread, htext, hiff.2 ((idsFit_iff hdeclares).2 hfit)⟩

end Sidlc
