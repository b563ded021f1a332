import Sidlc.Equiv.Program

/-!
# What the text of an artifact says

The text of an interface leaves out the sizes of types, the hashes and the ids of functions, and
nothing else. So the text of what a text compiles to is the text again
(`decompile_compile_decompile`), and an artifact is determined by its text and the ids of its
functions (`artifact_eq_iff`).
-/

namespace Sidlc

open CellFormat

/-! ### Sizes, hashes and ids are not printed -/

theorem decompileType_bare (node : TypeNode) : decompileType node.bare = decompileType node := by
  induction node with
  | named c n name => rfl
  | ptr c n innerType ih =>
    rw [TypeNode.bare, decompileType, decompileType, ih]
    rfl
  | array c n innerType ih =>
    rw [TypeNode.bare, decompileType, decompileType, ih]
    rfl

theorem decompileParameter_bare (node : ParameterNode) :
    decompileParameter node.bare = decompileParameter node := by
  simp only [decompileParameter, ParameterNode.bare, decompileType_bare]

theorem decompileFunction_bare (node : FunctionNode) :
    decompileFunction node.bare = decompileFunction node := by
  simp only [decompileFunction, FunctionNode.bare, Grammar.separatedBy_map,
    decompileParameter_bare]

theorem decompileStructField_bare (field : StructFieldNode) :
    decompileStructField field.bare = decompileStructField field := by
  simp only [decompileStructField, StructFieldNode.bare, decompileType_bare]

theorem decompileStruct_bare (node : StructNode) :
    decompileStruct node.bare = decompileStruct node := by
  simp only [decompileStruct, StructNode.bare, List.flatMap_map, decompileStructField_bare]

theorem decompileBitfield_bare (node : BitfieldNode) :
    decompileBitfield node.bare = decompileBitfield node := by
  simp only [decompileBitfield, BitfieldNode.bare, decompileType_bare]

theorem decompileEnum_bare (node : EnumNode) : decompileEnum node.bare = decompileEnum node := by
  simp only [decompileEnum, EnumNode.bare, decompileType_bare]

theorem decompileAbirevision_bare (node : AbiversionNode) :
    decompileAbirevision node.bare = decompileAbirevision node := by
  simp only [decompileAbirevision, AbiversionNode.bare, decompileDeclarations, List.map_map,
    Function.comp_def, decompileBitfield_bare, decompileEnum_bare, decompileStruct_bare,
    decompileFunction_bare]

theorem map_decompileFunction_renumberFunctions (id : UInt32) (fs : List FunctionNode) :
    (renumberFunctions id fs).map decompileFunction = fs.map decompileFunction := by
  induction fs generalizing id with
  | nil => rfl
  | cons f fs ih =>
    rw [renumberFunctions, List.map_cons, ih, List.map_cons]
    rfl

theorem map_decompileAbirevision_renumber (id : UInt32) (nodes : List AbiversionNode) :
    (renumber id nodes).map decompileAbirevision = nodes.map decompileAbirevision := by
  induction nodes generalizing id with
  | nil => rfl
  | cons node nodes ih =>
    rw [renumber, List.map_cons, ih, List.map_cons]
    congr 1
    simp only [decompileAbirevision, decompileDeclarations,
      map_decompileFunction_renumberFunctions]

/-- The text is that of the revisions, whatever the hashes are. -/
theorem decompileInterface_withRevisions (interface : InterfaceNode) {xs : List AbiversionNode}
    {n : UInt32}
    (h : xs.map decompileAbirevision = interface.abiversions.map decompileAbirevision) :
    decompileInterface (interface.withRevisions xs n) = decompileInterface interface := by
  have hrevisions : Grammar.separatedBy (ascii "\n") decompileAbirevision xs
      = Grammar.separatedBy (ascii "\n") decompileAbirevision interface.abiversions := by
    have hprint (ys : List AbiversionNode) :
        Grammar.separatedBy (ascii "\n") id (ys.map decompileAbirevision)
          = Grammar.separatedBy (ascii "\n") decompileAbirevision ys :=
      Grammar.separatedBy_map decompileAbirevision ys
    rw [← hprint, h, hprint]
  simp only [decompileInterface, InterfaceNode.withRevisions, hrevisions]

theorem map_decompileAbirevision_bare (nodes : List AbiversionNode) :
    (nodes.map AbiversionNode.bare).map decompileAbirevision = nodes.map decompileAbirevision := by
  simp only [List.map_map, Function.comp_def, decompileAbirevision_bare]

/-- **What a text denotes has the same text.** -/
theorem decompileInterface_merged_reparsed (interface : InterfaceNode) :
    decompileInterface ((interface.reparsed 0).merged []) = decompileInterface interface := by
  refine decompileInterface_withRevisions interface ?_
  rw [← map_decompileAbirevision_bare, InterfaceNode.map_bare_stampRevisions, allRevisions_nil,
    map_decompileAbirevision_bare]
  exact (map_decompileAbirevision_renumber ..).trans (map_decompileAbirevision_bare _)

/-! ### Renumbered functions -/

/-- Functions that agree up to their ids and have the same ids. -/
theorem eq_of_renumberFunctions_eq {id : UInt32} {fs gs : List FunctionNode}
    (h : renumberFunctions id fs = renumberFunctions id gs)
    (hids : fs.map FunctionNode.id = gs.map FunctionNode.id) : fs = gs := by
  induction fs generalizing id gs with
  | nil =>
    cases gs with
    | nil => rfl
    | cons g gs => cases h
  | cons f fs ih =>
    cases gs with
    | nil => cases h
    | cons g gs =>
      rw [renumberFunctions, renumberFunctions, List.cons.injEq] at h
      rw [List.map_cons, List.map_cons, List.cons.injEq] at hids
      have hhead : f = g :=
        calc f = { ({ f with id } : FunctionNode) with id := f.id } := rfl
          _ = { ({ g with id } : FunctionNode) with id := g.id } := by rw [h.1, hids.1]
          _ = g := rfl
      rw [hhead, ih h.2 hids.2]

/-- Revisions that agree up to the ids of their functions and have the same ids. -/
theorem eq_of_renumber_eq {id : UInt32} {xs ys : List AbiversionNode}
    (h : renumber id xs = renumber id ys)
    (hids : (functionsOf xs).map FunctionNode.id = (functionsOf ys).map FunctionNode.id) :
    xs = ys := by
  induction xs generalizing id ys with
  | nil =>
    cases ys with
    | nil => rfl
    | cons y ys => cases h
  | cons x xs ih =>
    cases ys with
    | nil => cases h
    | cons y ys =>
      rw [renumber, renumber, List.cons.injEq] at h
      obtain ⟨hhead, htail⟩ := h
      have hfunctions := congrArg AbiversionNode.functions hhead
      have hlength : x.functions.length = y.functions.length := by
        rw [← length_renumberFunctions id, ← length_renumberFunctions id y.functions]
        exact congrArg List.length hfunctions
      rw [functionsOf_cons, functionsOf_cons, List.map_append, List.map_append] at hids
      obtain ⟨hx, hxs⟩ := List.append_inj hids (by rw [List.length_map, List.length_map, hlength])
      have hsame : x.functions = y.functions := eq_of_renumberFunctions_eq hfunctions hx
      have hnode : x = y :=
        calc x = { ({ x with functions := renumberFunctions id x.functions } : AbiversionNode) with
                functions := x.functions } := rfl
          _ = { ({ y with functions := renumberFunctions id y.functions } : AbiversionNode) with
                functions := y.functions } := by rw [hhead, hsame]
          _ = y := rfl
      rw [hlength] at htail
      rw [hnode, ih htail hxs]

/-! ### Artifacts -/

namespace Artifact

variable {a b : Bytes}

/-- Artifacts with the same identity whose revisions agree up to sizes and hashes. -/
theorem eq_of_map_bare {identity : InterfaceNode} {xs ys : List AbiversionNode} {m n : UInt32}
    (ha : Artifact a (identity.withRevisions xs m)) (hb : Artifact b (identity.withRevisions ys n))
    (hbare : xs.map AbiversionNode.bare = ys.map AbiversionNode.bare) : a = b := by
  -- the hashes only depend on the identity and the revisions
  have hstamped (zs : List AbiversionNode) (k : UInt32) :
      (identity.withRevisions zs k).stampRevisions zeroHash zs
        = identity.stampRevisions zeroHash zs :=
    InterfaceNode.stampRevisions_congr (by rfl) _ _
  have hrevisions : xs = ys :=
    calc xs = identity.stampRevisions zeroHash (xs.map AbiversionNode.bare) := by
          rw [InterfaceNode.stampRevisions_map_bare, ← hstamped xs m]
          exact ha.decoded.stamped.symm
      _ = identity.stampRevisions zeroHash (ys.map AbiversionNode.bare) := by rw [hbare]
      _ = ys := by
          rw [InterfaceNode.stampRevisions_map_bare, ← hstamped ys n]
          exact hb.decoded.stamped
  subst hrevisions
  have hnext : m = n := ha.decoded.currentFuncid.trans hb.decoded.currentFuncid.symm
  subst hnext
  exact (ha.eq_iff hb).2 rfl

/-- Artifacts have the same text when they denote the same apart from the ids. -/
theorem decompileInterface_eq_iff {I J : InterfaceNode} (ha : Artifact a I) (hb : Artifact b J) :
    decompileInterface I = decompileInterface J ↔ I.reparsed 0 = J.reparsed 0 := by
  constructor
  · intro h
    have hparse := parseInterfaceFile_decompileInterface (n := 0) ha.normalized ha.printable
      ha.decoded.versions 0
    rw [h, parseInterfaceFile_decompileInterface (n := 0) hb.normalized hb.printable
      hb.decoded.versions 0] at hparse
    exact (Option.some.inj (Except.ok.inj hparse)).symm
  · intro h
    rw [← decompileInterface_merged_reparsed, h, decompileInterface_merged_reparsed]

theorem eq_iff_text {I J : InterfaceNode} (ha : Artifact a I) (hb : Artifact b J) :
    a = b ↔ decompileInterface I = decompileInterface J ∧
      (functionsOf I.abiversions).map FunctionNode.id
        = (functionsOf J.abiversions).map FunctionNode.id := by
  rw [ha.decompileInterface_eq_iff hb]
  constructor
  · intro h
    obtain rfl := (ha.eq_iff hb).1 h
    exact ⟨rfl, rfl⟩
  · rintro ⟨hsame, hids⟩
    have hI : Artifact a ((I.reparsed 0).withRevisions I.abiversions I.currentFuncid) := ha
    have hJ : Artifact b ((J.reparsed 0).withRevisions J.abiversions J.currentFuncid) := hb
    have hrenumber : renumber 0 (I.abiversions.map AbiversionNode.bare)
        = renumber 0 (J.abiversions.map AbiversionNode.bare) :=
      congrArg InterfaceNode.abiversions hsame
    have hbareIds (nodes : List AbiversionNode) :
        (functionsOf (nodes.map AbiversionNode.bare)).map FunctionNode.id
          = (functionsOf nodes).map FunctionNode.id := by
      rw [functionsOf_map_bare, List.map_map]
      rfl
    rw [hsame] at hI
    exact hI.eq_of_map_bare hJ (eq_of_renumber_eq hrenumber (by rw [hbareIds, hids, hbareIds]))

/-- Functions that are numbered from zero are numbered alike in every artifact with the text. -/
theorem eq_iff_text_of_numbered {I J : InterfaceNode} (ha : Artifact a I) (hb : Artifact b J)
    (hI : NumberedFrom 0 (functionsOf I.abiversions))
    (hJ : NumberedFrom 0 (functionsOf J.abiversions)) :
    a = b ↔ decompileInterface I = decompileInterface J := by
  constructor
  · rintro rfl
    exact congrArg decompileInterface ((ha.eq_iff hb).1 rfl)
  · intro hsame
    -- either artifact is what the text compiles to
    have hcompile := ha.compile_decompileInterface_iff.2 hI
    rw [hsame, hb.compile_decompileInterface_iff.2 hJ] at hcompile
    exact (Option.some.inj (Except.ok.inj hcompile)).symm

end Artifact

/-- **What the text of an artifact leaves out**: compiled artifacts are equal, byte by byte, exactly
when they have the same text and their functions have the same ids. Where both are numbered from
zero, the text is enough. -/
theorem artifact_eq_iff (sources sources' : List Bytes) (a b : Bytes) (ha : Compiled sources a)
    (hb : Compiled sources' b) :
    ∃ I J t u, sifRead a = .ok I ∧ sifDecompile I = .ok t ∧ sifRead b = .ok J ∧
      sifDecompile J = .ok u ∧
      (a = b ↔ t = u ∧ (functionsOf I.abiversions).map FunctionNode.id
        = (functionsOf J.abiversions).map FunctionNode.id) ∧
      (NumberedFrom 0 (functionsOf I.abiversions) → NumberedFrom 0 (functionsOf J.abiversions) →
        (a = b ↔ t = u)) := by
  obtain ⟨I, -, hI, -, -, -⟩ := ha.spec
  obtain ⟨J, -, hJ, -, -, -⟩ := hb.spec
  exact ⟨I, J, _, _, hI.sifRead, hI.sifDecompile, hJ.sifRead, hJ.sifDecompile, hI.eq_iff_text hJ,
    hI.eq_iff_text_of_numbered hJ⟩

/-- A source that was extended and the text of what it became. -/
theorem artifact_eq_iff_repeatedSources :
    ∃ (a b t u : Bytes) (I J : InterfaceNode),
      Compiled [repeatedSource 0 [1, 1], repeatedSource 2 [1]] a ∧ Compiled [t] b ∧
      sifRead a = .ok I ∧ sifDecompile I = .ok t ∧ sifRead b = .ok J ∧ sifDecompile J = .ok u ∧
      (a = b ↔ t = u ∧ (functionsOf I.abiversions).map FunctionNode.id
        = (functionsOf J.abiversions).map FunctionNode.id) := by
  obtain ⟨a, h⟩ := compiled_repeatedSources [1, 1] [1] 2 rfl (by simp) (by decide) (by decide)
    (by decide)
  obtain ⟨interface, -, hartifact, -, -, -⟩ := h.spec
  obtain ⟨b, hcompile, -⟩ := compile_decompileInterface hartifact.normalized
    hartifact.printable hartifact.decoded.writable hartifact.decoded.versions
  obtain ⟨I, J, t, u, hI, ht, hJ, hu, hiff, -⟩ := artifact_eq_iff _ _ a b h (.first hcompile)
  obtain rfl : interface = I := Except.ok.inj (hartifact.sifRead.symm.trans hI)
  obtain rfl : decompileInterface interface = t :=
    Except.ok.inj (hartifact.sifDecompile.symm.trans ht)
  exact ⟨a, b, _, u, interface, J, h, .first hcompile, hI, ht, hJ, hu, hiff⟩

/-! ### Texts in a run -/

/-- **Decompiling, compiling and decompiling again, in any run**, gives the same text for every
accepted file where the outputs can be opened, whatever the ids of its functions. -/
theorem decompile_compile_decompile (files : FileSystem) (past : List FileSystem)
    (h : History (files :: past)) (host : Host) (file : Bytes) (interface : InterfaceNode)
    (hread : sifRead file = .ok interface) (args args' args'' : List Bytes)
    (options options'' : DecompileOptions) (options' : CompileOptions)
    (hargs : decompileParser.take {} args = (true, options))
    (hargs' : takeOptions {} args' = (true, options'))
    (hargs'' : decompileParser.take {} args'' = (true, options''))
    (hbase : options'.basePath = []) (hinput : options.inputPath ≠ [])
    (hfile : files options.inputPath = some file) (houtput : options.outputPath ≠ [])
    (hinput' : options'.inputPath = options.outputPath) (houtput' : options'.outputPath ≠ [])
    (hinput'' : options''.inputPath = options'.outputPath) (houtput'' : options''.outputPath ≠ [])
    (hdirectories : ∀ path, host.createDirectories path = .ok ())
    (hopens : ∀ path, host.opens path = true) :
    ∃ files₁ files₂ files₃ text, commandDecompile host args files = (.ok 0, files₁) ∧
      commandCompile host args' files₁ = (.ok 0, files₂) ∧
      commandDecompile host args'' files₂ = (.ok 0, files₃) ∧
      files₁ options.outputPath = some text ∧ files₃ options''.outputPath = some text := by
  have hartifact := h.artifact hfile hread
  have hdecompile := commandDecompile_of_read hargs hinput houtput hfile hartifact
    (hdirectories _) (hopens _)
  have htext : Function.update files options.outputPath (some (decompileInterface interface))
      options'.inputPath = some (decompileInterface interface) := by
    rw [hinput', Function.update_self]
  obtain ⟨recompiled, -, hrecompiled, hcompile⟩ := commandCompile_of_text hargs' hbase
    (by rwa [hinput']) houtput' htext hartifact (hdirectories _) (hopens _)
  have hfile'' : Function.update (Function.update files options.outputPath
      (some (decompileInterface interface))) options'.outputPath (some recompiled)
      options''.inputPath = some recompiled := by
    rw [hinput'', Function.update_self]
  have hagain := commandDecompile_of_read hargs'' (by rwa [hinput'']) houtput'' hfile''
    hrecompiled (hdirectories _) (hopens _)
  refine ⟨_, _, _, decompileInterface interface, hdecompile, hcompile, hagain,
    Function.update_self .., ?_⟩
  rw [Function.update_self, decompileInterface_merged_reparsed]

/-- `decompile -o t a`, `compile -o c t` and `decompile -o u c`. -/
theorem decompile_compile_decompile_sample :
    ∃ (files files₁ files₂ files₃ : FileSystem) (text : Bytes),
      commandDecompile sampleHost [ascii "-o", ascii "t", ascii "a"] files = (.ok 0, files₁) ∧
      commandCompile sampleHost [ascii "-o", ascii "c", ascii "t"] files₁ = (.ok 0, files₂) ∧
      commandDecompile sampleHost [ascii "-o", ascii "u", ascii "c"] files₂ = (.ok 0, files₃) ∧
      files₁ (ascii "t") = some text ∧ files₃ (ascii "u") = some text := by
  obtain ⟨files, artifact, interface, h, hfile, hread⟩ := exists_history
  obtain ⟨files₁, files₂, files₃, text, hruns⟩ := decompile_compile_decompile files _ h
    sampleHost artifact interface hread [ascii "-o", ascii "t", ascii "a"]
    [ascii "-o", ascii "c", ascii "t"] [ascii "-o", ascii "u", ascii "c"]
    ⟨ascii "t", ascii "a"⟩ ⟨ascii "u", ascii "c"⟩ ⟨[], ascii "c", ascii "t"⟩
    (by decide) (by decide) (by decide) rfl (by decide) hfile (by decide) rfl (by decide) rfl
    (by decide) (fun _ => rfl) (fun _ => rfl)
  exact ⟨files, files₁, files₂, files₃, text, hruns⟩

end Sidlc
