import Sidlc.Generate.Equiv.WireLayout
import Sidlc.Generate.Machine

/-!
# Functions whose code compiles

What a function has to be like for C to accept its stub and its dispatch case (`Builds`), in terms
of its parameters: names that are free, complete types, scalars where words are passed, output that
can be assigned, and argument lists that do not end in a comma.
-/

namespace Sidlc

open CValue

/-- The handler is given the caller's own pointer. -/
def PassesThrough (abi : ArchAbi) (node : FunctionNode) : Prop :=
  ∃ p, (clientPartition abi node).outParams = [p] ∧ p.node.type.isPtr = true

/-- The parameter is passed in a word of its own, on one side or the other. -/
def HasWord (abi : ArchAbi) (infos : TypeValueInfos) (node : FunctionNode) (p : Param) : Prop :=
  ((clientPartition abi node).canUseCallReg = true ∨ p ∈ (clientPartition abi node).peeledParams) ∨
    (serverPartition abi infos node).canUseCallReg = true ∨
      p ∈ (serverPartition abi infos node).peeledParams

/-- C accepts what is generated for the function. -/
structure Builds (M : Machine) (abi : ArchAbi) (pfx : Bytes) (infos : TypeValueInfos)
    (node : FunctionNode) : Prop where
  nodup : (node.parameters.map ParameterNode.name).Nodup
  function : M.isFree node.name = true ∧ M.isFree (pfx ++ node.name) = true
  names : ∀ p ∈ node.parameters, M.isFree p.name = true ∧ M.isFree (ascii "_" ++ p.name) = true
  /-- No parameter is called like a block that the server declares. -/
  blocks : ∀ p ∈ node.params, ∀ q ∈ node.params, (serverPartition abi infos node).InBlock q →
    p.node.name ≠ (serverPartition abi infos node).variableOf q
  types : ∀ p ∈ node.parameters, M.IsType (getParameterCType pfx p)
  words : ∀ p ∈ node.params, HasWord abi infos node p → M.IsScalar (getParameterCType pfx p.node)
  /-- Output that the stub keeps can be assigned. -/
  output : ¬PassesThrough abi node → ∀ p ∈ node.parameters, p.direction = .OUT →
    M.IsType (toCType pfx p.type) ∧ M.isConst (toCType pfx p.type) = false
  /-- `StHandle_CallN` is passed words behind the blocks. -/
  closed : (clientPartition abi node).canUseCallReg = true ∨ 0 < abi.peelSlotCount

section Builds

variable {M : Machine} {abi : ArchAbi} {pfx : Bytes} {infos : TypeValueInfos} {node : FunctionNode}

/-! ### Types -/

/-- Output, and what has a pointer type, is a pointer to the generated code. -/
theorem kind_eq_pointer {p : ParameterNode} (h : p.direction ≠ .IN ∨ p.type.isPtr = true)
    {k : Kind} (hk : M.kindOf (getParameterCType pfx p) = some k) : k = .pointer := by
  -- the C type ends in a star: of the pointer type, or of the direction
  have hstar : ∃ text, getParameterCType pfx p = text ++ ascii "*" := by
    have hspace : ascii " *" = ascii " " ++ ascii "*" := by decide
    have hvoid : ascii "void *" = ascii "void " ++ ascii "*" := by decide
    unfold getParameterCType
    by_cases hdir : p.direction = .IN
    · have hptr := h.resolve_left (not_not.2 hdir)
      cases htype : p.type with
      | ptr c n inner =>
        simp only [TypeNode.isPtr, if_true, toCType, hdir, ne_eq, not_true_eq_false, if_false,
          List.append_nil]
        split_ifs
        · exact ⟨_, by rw [hvoid, ← List.append_assoc]⟩
        · exact ⟨_, by rw [hspace, ← List.append_assoc, ← List.append_assoc]⟩
      | named c n name => rw [htype] at hptr; cases hptr
      | array c n inner => rw [htype] at hptr; cases hptr
    · simp only [hdir, ne_eq, not_false_eq_true, if_true]
      split_ifs
      · exact ⟨_, rfl⟩
      · exact ⟨_, by rw [hspace, ← List.append_assoc]⟩
  obtain ⟨text, htext⟩ := hstar
  rw [htext] at hk
  exact M.kindOf_star text k hk

theorem isScalar_of_pointer {p : ParameterNode} (h : p.direction ≠ .IN ∨ p.type.isPtr = true)
    (htype : M.IsType (getParameterCType pfx p)) : M.IsScalar (getParameterCType pfx p) := by
  obtain ⟨k, hk⟩ := Option.isSome_iff_exists.1 htype
  obtain rfl := kind_eq_pointer h hk
  exact ⟨.pointer, hk, trivial⟩

/-! ### Output -/

theorem outParams_eq (abi : ArchAbi) (infos : TypeValueInfos) (node : FunctionNode) :
    (serverPartition abi infos node).outParams = (clientPartition abi node).outParams := by
  rw [(serverPartition_spec abi infos node).outParams, (clientPartition_spec abi node).outParams]

theorem mem_outParams_iff {p : Param} :
    p ∈ (clientPartition abi node).outParams ↔ p ∈ node.params ∧ p.node.direction = .OUT := by
  rw [(clientPartition_spec abi node).outParams, List.mem_filter, decide_eq_true_eq]

theorem exists_param_of_mem {n : ParameterNode} (h : n ∈ node.parameters) :
    ∃ p ∈ node.params, p.node = n := by
  rw [← node.map_node_params] at h
  exact List.mem_map.1 h

/-- Where all parameters are in registers, none is output. -/
theorem direction_eq_of_canUseCallReg (h : (clientPartition abi node).canUseCallReg = true)
    {p : Param} (hp : p ∈ node.params) : p.node.direction = .IN := by
  rw [(clientPartition_spec abi node).canUseCallReg, Bool.and_eq_true] at h
  have hscalar := List.all_eq_true.1 h.2 p hp
  simp only [isScalar, Bool.and_eq_true, decide_eq_true_eq] at hscalar
  exact hscalar.1.1.1

/-- The stub keeps the output, unless it passes the caller's pointer. -/
theorem outTypes_clientStub :
    (clientStub abi pfx node).outTypes = [] ∧
        (PassesThrough abi node ∨ (clientPartition abi node).canUseCallReg = true) ∨
      (clientStub abi pfx node).outTypes
          = (clientPartition abi node).outParams.map (fun p => toCType pfx p.node.type) ∧
        ¬PassesThrough abi node := by
  by_cases hreg : (clientPartition abi node).canUseCallReg = true
  · rw [clientStub_of_callReg hreg]
    exact .inl ⟨rfl, .inr hreg⟩
  · rw [clientStub_of_block (Bool.eq_false_iff.2 hreg), PassesThrough, ClientStub.outTypes]
    show (outBufferOf pfx (clientPartition abi node)).types = _ ∧ _ ∨ _
    rcases hparams : (clientPartition abi node).outParams with _ | ⟨p, _ | ⟨q, rest⟩⟩
    · simp [outBufferOf, OutBuffer.types, hparams]
    · by_cases hptr : p.node.type.isPtr = true
      · simp [outBufferOf, OutBuffer.types, hparams, hptr]
      · simp [outBufferOf, OutBuffer.types, hparams, hptr]
    · simp [outBufferOf, OutBuffer.types, hparams]

theorem forall_outTypes_iff :
    (∀ type ∈ (clientStub abi pfx node).outTypes, M.IsType type ∧ M.isConst type = false) ↔
      (¬PassesThrough abi node → ∀ p ∈ node.parameters, p.direction = .OUT →
        M.IsType (toCType pfx p.type) ∧ M.isConst (toCType pfx p.type) = false) := by
  rcases @outTypes_clientStub abi pfx node with ⟨hnil, h⟩ | ⟨heq, hno⟩
  · rw [hnil]
    refine iff_of_true (List.forall_mem_nil _) fun hno n hn hdir => ?_
    -- without output there is nothing to keep
    obtain ⟨p, hp, rfl⟩ := exists_param_of_mem hn
    rw [direction_eq_of_canUseCallReg (h.resolve_left hno) hp] at hdir
    cases hdir
  · rw [heq, List.forall_mem_map]
    constructor
    · intro h _ n hn hdir
      obtain ⟨p, hp, rfl⟩ := exists_param_of_mem hn
      exact h p (mem_outParams_iff.2 ⟨hp, hdir⟩)
    · intro h p hp
      obtain ⟨hparam, hdir⟩ := mem_outParams_iff.1 hp
      exact h hno p.node (node.node_mem_parameters hparam) hdir

/-! ### The stub -/

theorem mem_peelOf_iff {p : Param} :
    some p ∈ peelOf abi (clientPartition abi node) ↔
      p ∈ (clientPartition abi node).peeledParams := by
  have hslots := (clientPartition_spec abi node).length_peeledParams_le
  rw [peelOf, List.mem_map]
  constructor
  · rintro ⟨i, -, hi⟩
    exact List.mem_of_getElem? hi
  · intro hp
    obtain ⟨i, hi⟩ := List.mem_iff_getElem?.1 hp
    have hlt := (List.getElem?_eq_some_iff.1 hi).1
    exact ⟨i, List.mem_range.2 (by omega), hi⟩

/-- The words of a stub are the parameters in registers, and pointers. -/
theorem mem_words_clientStub {p : Param} (h : p ∈ (clientStub abi pfx node).words) :
    p ∈ node.params ∧
      (((clientPartition abi node).canUseCallReg = true ∨
        p ∈ (clientPartition abi node).peeledParams) ∨
        p.node.direction ≠ .IN ∨ p.node.type.isPtr = true) := by
  have hspec := clientPartition_spec abi node
  by_cases hreg : (clientPartition abi node).canUseCallReg = true
  · rw [clientStub_of_callReg hreg] at h
    exact ⟨h, .inl (.inl hreg)⟩
  · rw [clientStub_of_block (Bool.eq_false_iff.2 hreg), ClientStub.words] at h
    rcases List.mem_append.1 h with h | hpeel
    · rcases List.mem_append.1 h with hin | hout
      · -- the only input, if it is a pointer
        unfold inArgumentOf at hin
        rcases hparams : (clientPartition abi node).inParams with _ | ⟨q, _ | ⟨r, rest⟩⟩
        · simp [hparams] at hin
        · by_cases hptr : q.node.type.isPtr = true
          · simp only [hparams, hptr, if_true, List.mem_singleton] at hin
            rw [hin]
            exact ⟨(hspec.mem_iff q).2 (.inl (hparams ▸ List.mem_cons_self)), .inr (.inr hptr)⟩
          · simp [hparams, hptr] at hin
        · simp [hparams] at hin
      · unfold outArgumentOf at hout
        rcases hparams : (clientPartition abi node).outParams with _ | ⟨q, _ | ⟨r, rest⟩⟩
        · simp [hparams] at hout
        · by_cases hptr : q.node.type.isPtr = true
          · simp only [hparams, hptr, if_true, List.mem_singleton] at hout
            rw [hout]
            exact ⟨(mem_outParams_iff.1 (hparams ▸ List.mem_cons_self)).1, .inr (.inr hptr)⟩
          · simp [hparams, hptr] at hout
        · simp [hparams] at hout
    · rw [List.mem_filterMap] at hpeel
      obtain ⟨o, ho, rfl⟩ := hpeel
      have hmem := mem_peelOf_iff.1 ho
      exact ⟨(hspec.mem_iff p).2 (.inr (.inr hmem)), .inl (.inr hmem)⟩

theorem mem_words_of_slot {p : Param} (hp : p ∈ node.params)
    (h : (clientPartition abi node).canUseCallReg = true ∨
      p ∈ (clientPartition abi node).peeledParams) : p ∈ (clientStub abi pfx node).words := by
  by_cases hreg : (clientPartition abi node).canUseCallReg = true
  · rw [clientStub_of_callReg hreg]
    exact hp
  · rw [clientStub_of_block (Bool.eq_false_iff.2 hreg), ClientStub.words]
    refine List.mem_append_right _ (List.mem_filterMap.2 ⟨some p, ?_, rfl⟩)
    exact mem_peelOf_iff.2 (h.resolve_left hreg)

theorem forall_parameters_clientStub {P : BlockField → Prop} :
    (∀ f ∈ (clientStub abi pfx node).parameters, P f) ↔
      ∀ p ∈ node.params, P ⟨getParameterCType pfx p.node, p⟩ := by
  rw [parameters_clientStub, List.forall_mem_map]
  exact Iff.rfl

theorem closed_clientStub_iff : (clientStub abi pfx node).call.Closed ↔
    (clientPartition abi node).canUseCallReg = true ∨ 0 < abi.peelSlotCount := by
  by_cases hreg : (clientPartition abi node).canUseCallReg = true
  · rw [clientStub_of_callReg hreg]
    exact iff_of_true trivial (.inl hreg)
  · rw [clientStub_of_block (Bool.eq_false_iff.2 hreg), or_iff_right hreg]
    show peelOf abi _ ≠ [] ↔ _
    rw [← List.length_pos_iff, peelOf, List.length_map, List.length_range]

theorem Builds.clientStub (h : Builds M abi pfx infos node) :
    (clientStub abi pfx node).Compiles M where
  nodup := (nodup_stubNames abi pfx h.nodup).1
  function := by
    rw [function_clientStub]
    exact h.function.2
  names := forall_parameters_clientStub.2 fun p hp => h.names p.node (node.node_mem_parameters hp)
  types := forall_parameters_clientStub.2 fun p hp => h.types p.node (node.node_mem_parameters hp)
  words p hp := by
    obtain ⟨hparam, hslot | hpointer⟩ := mem_words_clientStub hp
    · rw [typeOf_clientStub hparam]
      exact h.words p hparam (.inl hslot)
    · rw [typeOf_clientStub hparam]
      exact isScalar_of_pointer hpointer (h.types p.node (node.node_mem_parameters hparam))
  output := forall_outTypes_iff.2 h.output
  closed := closed_clientStub_iff.2 h.closed

/-! ### The case -/

theorem forall_locals_dispatchCase {P : DispatchLocal → Prop} :
    (∀ l ∈ (dispatchCase abi pfx infos node).locals, P l) ↔
      ∀ p ∈ node.params, P (localOf pfx (serverPartition abi infos node) p) := by
  rw [locals_dispatchCase, List.forall_mem_map]
  exact Iff.rfl

/-- The words that a case casts are the parameters in registers, and pointers. -/
theorem isWord_argExpression {p : Param} (hp : p ∈ node.params) :
    ((argExpression pfx (serverPartition abi infos node) p).isWord = true →
      ((serverPartition abi infos node).canUseCallReg = true ∨
        p ∈ (serverPartition abi infos node).peeledParams) ∨
        p.node.direction ≠ .IN ∨ p.node.type.isPtr = true) ∧
    ((serverPartition abi infos node).canUseCallReg = true ∨
        p ∈ (serverPartition abi infos node).peeledParams →
      (argExpression pfx (serverPartition abi infos node) p).isWord = true) := by
  have hspec := serverPartition_spec abi infos node
  set s := serverPartition abi infos node
  by_cases hreg : s.canUseCallReg = true
  · refine ⟨fun _ => .inl (.inl hreg), fun _ => ?_⟩
    unfold argExpression
    rw [if_pos hreg]
    split_ifs <;> rfl
  · have hexpr := argExpression_of_block pfx (Bool.eq_false_iff.2 hreg) p
    by_cases hdir : p.node.direction = .OUT
    · have hnpeel := (hspec.notMem_of_direction_out hdir).2
      exact ⟨fun _ => .inr (.inl (by rw [hdir]; decide)),
        fun h => absurd (h.resolve_left hreg) hnpeel⟩
    · rw [if_neg hdir] at hexpr
      by_cases hpeel : p ∈ s.peeledParams
      · rw [if_pos hpeel] at hexpr
        rw [hexpr]
        exact ⟨fun _ => .inl (.inr hpeel), fun _ => rfl⟩
      · rw [if_neg hpeel] at hexpr
        refine ⟨fun hword => .inr (.inr ?_), fun h => absurd (h.resolve_left hreg) hpeel⟩
        -- what is left is input, which is cast only if it is a single pointer
        have hin : p ∈ s.inParams := by
          rcases (hspec.mem_iff p).1 hp with h | h | h
          · exact h
          · exact absurd (hspec.direction_of_mem_out h) hdir
          · exact absurd h hpeel
        rw [hexpr] at hword
        rcases hparams : s.inParams with _ | ⟨q, _ | ⟨r, rest⟩⟩
        · rw [hparams] at hin
          cases hin
        · rw [hparams] at hin
          obtain rfl := List.mem_singleton.1 hin
          by_contra hptr
          simp [hparams, hptr, ArgExpression.isWord] at hword
        · simp [hparams, ArgExpression.isWord] at hword

theorem isSome_inBlock_iff : (dispatchCase abi pfx infos node).inBlock.isSome = true ↔
    ∃ q ∈ node.params, (serverPartition abi infos node).InBlock q ∧ q.node.direction ≠ .OUT := by
  have hspec := serverPartition_spec abi infos node
  rw [inBlock_dispatchCase]
  constructor
  · intro h
    split_ifs at h with hblock
    · rw [Bool.and_eq_true, Bool.not_eq_true', decide_eq_true_eq] at hblock
      obtain ⟨q, hq⟩ := List.exists_mem_of_length_pos (Nat.lt_trans Nat.zero_lt_one hblock.2)
      exact ⟨q, (hspec.mem_iff q).2 (.inl hq), ⟨hblock.1, .inl ⟨hq, hblock.2⟩⟩,
        (hspec.direction_of_mem_in hq).1⟩
    · cases h
  · rintro ⟨q, -, ⟨hreg, ⟨-, hlen⟩ | ⟨hout, -⟩⟩, hdir⟩
    · rw [hreg, if_pos (by simpa using hlen)]
      rfl
    · exact absurd (hspec.direction_of_mem_out hout) hdir

theorem isSome_outBlock_iff : (dispatchCase abi pfx infos node).outBlock.isSome = true ↔
    ∃ q ∈ node.params, (serverPartition abi infos node).InBlock q ∧ q.node.direction = .OUT := by
  have hspec := serverPartition_spec abi infos node
  rw [outBlock_dispatchCase]
  constructor
  · intro h
    split_ifs at h with hblock
    · rw [Bool.and_eq_true, Bool.not_eq_true', decide_eq_true_eq] at hblock
      obtain ⟨q, hq⟩ := List.exists_mem_of_length_pos (Nat.lt_trans Nat.zero_lt_one hblock.2)
      exact ⟨q, (hspec.mem_iff q).2 (.inr (.inl hq)), ⟨hblock.1, .inr ⟨hq, hblock.2⟩⟩,
        hspec.direction_of_mem_out hq⟩
    · cases h
  · rintro ⟨q, -, ⟨hreg, ⟨hin, -⟩ | ⟨-, hlen⟩⟩, hdir⟩
    · exact absurd hdir (hspec.direction_of_mem_in hin).1
    · rw [hreg, if_pos (by simpa using hlen)]
      rfl

/-- The names of the blocks in front of other names. -/
theorem nodup_blocks_append {a b : Bytes} (hne : a ≠ b) (x y : Bool) (names : List Bytes) :
    ((if x then [a] else []) ++ (if y then [b] else []) ++ names).Nodup ↔
      names.Nodup ∧ (x = true → a ∉ names) ∧ (y = true → b ∉ names) := by
  cases x
  · cases y
    · simp
    · simp [and_comm]
  · cases y
    · simp [and_comm]
    · simp only [if_true, List.cons_append, List.nil_append, List.nodup_cons, List.mem_cons, hne,
        false_or, true_implies]
      tauto

/-- The names of a case differ. -/
theorem nodup_names_iff :
    (dispatchCase abi pfx infos node).names.Nodup ↔
      (node.parameters.map ParameterNode.name).Nodup ∧
        ∀ p ∈ node.params, ∀ q ∈ node.params, (serverPartition abi infos node).InBlock q →
          p.node.name ≠ (serverPartition abi infos node).variableOf q := by
  rw [DispatchCase.names, nodup_blocks_append (by decide), map_name_locals, isSome_inBlock_iff,
    isSome_outBlock_iff, ← node.map_node_params]
  refine and_congr_right fun _ => ?_
  simp only [List.mem_map, not_exists, not_and]
  constructor
  · rintro ⟨hin, hout⟩ p hp q hq hblock
    rw [Partition.variableOf, if_pos hblock]
    split_ifs with hdir
    · exact hout ⟨q, hq, hblock, hdir⟩ p.node ⟨p, hp, rfl⟩
    · exact hin ⟨q, hq, hblock, hdir⟩ p.node ⟨p, hp, rfl⟩
  · intro h
    constructor
    · rintro ⟨q, hq, hblock, hdir⟩ n ⟨p, hp, rfl⟩
      have hne := h p hp q hq hblock
      rwa [Partition.variableOf, if_pos hblock, if_neg hdir] at hne
    · rintro ⟨q, hq, hblock, hdir⟩ n ⟨p, hp, rfl⟩
      have hne := h p hp q hq hblock
      rwa [Partition.variableOf, if_pos hblock, if_pos hdir] at hne

theorem Builds.dispatchCase (h : Builds M abi pfx infos node) (hown : OwnNames abi infos node) :
    (dispatchCase abi pfx infos node).Compiles M where
  usesOwn := usesOwn_iff_ownNames.2 hown
  nodup := nodup_names_iff.2 ⟨h.nodup, h.blocks⟩
  callee := h.function.1
  names := forall_locals_dispatchCase.2 fun p hp =>
    (h.names p.node (node.node_mem_parameters hp)).1
  types := forall_locals_dispatchCase.2 fun p hp => h.types p.node (node.node_mem_parameters hp)
  words := forall_locals_dispatchCase.2 fun p hp hword => by
    rcases (isWord_argExpression hp).1 hword with hslot | hpointer
    · exact h.words p hp (.inr hslot)
    · exact isScalar_of_pointer hpointer (h.types p.node (node.node_mem_parameters hp))
  output := by
    rw [outBlock_dispatchCase]
    split_ifs with hblock
    · rw [Bool.and_eq_true, decide_eq_true_eq] at hblock
      rw [Option.getD_some, outFields, List.forall_mem_map, outParams_eq]
      rw [outParams_eq] at hblock
      intro p hp
      obtain ⟨hparam, hdir⟩ := mem_outParams_iff.1 hp
      refine (h.output ?_ p.node (node.node_mem_parameters hparam) hdir).1
      rintro ⟨q, hq, -⟩
      rw [hq] at hblock
      exact absurd hblock.2 (Nat.lt_irrefl 1)
    · exact List.forall_mem_nil _

/-- **C accepts the code of exactly these functions.** -/
theorem compiles_iff_builds :
    (clientStub abi pfx node).Compiles M ∧ (dispatchCase abi pfx infos node).Compiles M ↔
      Builds M abi pfx infos node ∧ OwnNames abi infos node := by
  constructor
  · rintro ⟨hstub, hcase⟩
    obtain ⟨hnodup, hblocks⟩ := nodup_names_iff.1 hcase.nodup
    have hnames := forall_parameters_clientStub.1 hstub.names
    have htypes := forall_parameters_clientStub.1 hstub.types
    refine ⟨⟨hnodup, ⟨hcase.callee, ?_⟩, ?_, hblocks, ?_, ?_, forall_outTypes_iff.1 hstub.output,
      closed_clientStub_iff.1 hstub.closed⟩, usesOwn_iff_ownNames.1 hcase.usesOwn⟩
    · have hfunction := hstub.function
      rw [function_clientStub] at hfunction
      exact hfunction
    · intro n hn
      obtain ⟨p, hp, rfl⟩ := exists_param_of_mem hn
      exact hnames p hp
    · intro n hn
      obtain ⟨p, hp, rfl⟩ := exists_param_of_mem hn
      exact htypes p hp
    · rintro p hp (hslot | hslot)
      · have hword := hstub.words p (mem_words_of_slot hp hslot)
        rwa [typeOf_clientStub hp] at hword
      · exact forall_locals_dispatchCase.1 hcase.words p hp ((isWord_argExpression hp).2 hslot)
  · rintro ⟨hbuilds, hown⟩
    exact ⟨hbuilds.clientStub, hbuilds.dispatchCase hown⟩

end Builds

end Sidlc
