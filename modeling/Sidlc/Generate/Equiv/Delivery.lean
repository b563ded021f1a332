import Sidlc.Generate.Equiv.OutParameters

/-!
# What a call delivers

Where the server finds a size for every type that is passed by value, both sides split the
parameters alike (`clientPartition_eq_server`). Then every expression of the dispatcher undoes what
the stub did with the argument, in a slot (`Received.eq_of_peeled`), behind a pointer
(`enter_argument`) or in a block (`enter_member`), and the handler is called with the arguments of
the caller (`delivers`).
-/

namespace Sidlc

open CValue

section Delivery

variable {M : Machine} {abi : ArchAbi} {pfx : Bytes} {infos : TypeValueInfos} {node : FunctionNode}
  {arg : Param → Value}

/-- The server finds a size of at most a register for the type of every value. -/
def SizesKnown (abi : ArchAbi) (infos : TypeValueInfos) (node : FunctionNode) : Prop :=
  ∀ p ∈ node.parameters, p.IsValue →
    1 ≤ getTypeValueInfo infos p.type ∧ getTypeValueInfo infos p.type ≤ abi.pointerSize

theorem clientPartition_eq_server (hsize : ∀ p ∈ node.parameters, p.type.typeSize = 0)
    (hknown : SizesKnown abi infos node) :
    clientPartition abi node = serverPartition abi infos node := by
  have hclient := clientPartition_spec abi node
  have hserver := serverPartition_spec abi infos node
  -- the sides differ only in what they take for a scalar
  have hscalar : ∀ p ∈ node.params,
      isScalar abi p.node = isScalarInRegisterParam abi infos p.node := by
    intro p hp
    have hmem : p.node ∈ node.parameters := node.node_mem_parameters hp
    rw [Bool.eq_iff_iff, isScalar_iff (hsize _ hmem)]
    constructor
    · intro hvalue
      obtain ⟨hpos, hle⟩ := hknown _ hmem hvalue
      exact isScalarInRegisterParam_iff.2 ⟨hvalue.1, hvalue.2.1, hvalue.2.2, hpos, hle⟩
    · exact isValue_of_isScalarInRegisterParam
  refine hclient.congr hserver ?_ ?_
  · rw [hclient.canUseCallReg, hserver.canUseCallReg]
    refine congrArg _ ?_
    rw [Bool.eq_iff_iff, List.all_eq_true, List.all_eq_true]
    exact forall₂_congr fun p hp => by rw [hscalar p hp]
  · rw [hclient.peeledParams, hserver.peeledParams]
    refine congrArg _ (List.filter_congr fun p hp => ?_)
    rw [Partition.IsInScalar, Partition.IsInScalar, hscalar p hp]

/-! ### Input -/

/-- A value in a slot is undone by the cast. -/
theorem Received.eq_of_peeled {s : Partition} {m : Memory} {i o : Address} {peel : List Value}
    {p : Param} {k : Kind} {v : Value} (h : Received M pfx s m i o peel p k v)
    (hp : p ∈ s.peeledParams) (hpeel : peel[s.peeledParams.idxOf p]? = toWord (arg p))
    (hscalar : k.IsScalar) (harg : HasKind k (arg p)) : v = arg p := by
  obtain ⟨w, hw, hcast⟩ := h.peeled hp
  have hback := cast_toWord hscalar harg
  rw [← hpeel, hw, Option.bind_some, hcast] at hback
  exact Option.some.inj hback

theorem inArgumentOf_eq_block {s : Partition} (hlen : 1 < s.inParams.length) :
    inArgumentOf s = .block := by
  unfold inArgumentOf
  rcases hin : s.inParams with _ | ⟨q, _ | ⟨r, rest⟩⟩
  · rw [hin] at hlen
    exact absurd hlen (by decide)
  · rw [hin] at hlen
    exact absurd hlen (lt_irrefl 1)
  · rfl

/-- A value whose address is passed. -/
theorem enter_argument (hnodup : (node.parameters.map ParameterNode.name).Nodup)
    (htyped : Typed M pfx node arg) (hreg : (clientPartition abi node).canUseCallReg = false)
    (F : Frame M (clientStub abi pfx node)) {p : Param}
    (hin : (clientPartition abi node).inParams = [p]) (hptr : p.node.type.isPtr = false) {k : Kind}
    (hk : M.kindOf (getParameterCType pfx p.node) = some k) (m : Memory) :
    (ClientStub.enter F (node.params.map arg) m).load F.argument k = arg p := by
  have hspec := clientPartition_spec abi node
  have hp : p ∈ node.params := (hspec.mem_iff p).2 (.inl (by rw [hin]; exact List.mem_cons_self))
  have hargument : inArgumentOf (clientPartition abi node) = .addressOf p := by
    rw [inArgumentOf, hin]
    exact if_neg (by rw [hptr]; decide)
  rw [ClientStub.enter, call_clientStub hreg, hargument]
  simp only [typeOf_clientStub hp, valueOf_clientStub hnodup hp, Machine.represent, hk]
  exact Memory.load_store (htyped p hp k hk) (M.size_le _ k hk)

/-- A member of the block. -/
theorem enter_member (hnodup : (node.parameters.map ParameterNode.name).Nodup)
    (htyped : Typed M pfx node arg) (hreg : (clientPartition abi node).canUseCallReg = false)
    (F : Frame M (clientStub abi pfx node)) {p : Param}
    (hp : p ∈ (clientPartition abi node).inParams)
    (hlen : 1 < (clientPartition abi node).inParams.length) {k : Kind}
    (hk : M.kindOf (getParameterCType pfx p.node) = some k) (m : Memory) :
    (ClientStub.enter F (node.params.map arg) m).load
      (M.member F.inBlock (inFields pfx (clientPartition abi node)) p) k = arg p := by
  have hspec := clientPartition_spec abi node
  have hparam : p ∈ node.params := (hspec.mem_iff p).2 (.inl hp)
  have hmembers := inMembers_clientStub pfx hreg hlen
  have hkind := htyped p hparam k hk
  have hcell : (M.member F.inBlock (inFields pfx (clientPartition abi node)) p,
      represent k (arg p)) ∈ inCells F arg := by
    refine List.mem_map.2 ⟨⟨getParameterCType pfx p.node, p⟩, ?_, ?_⟩
    · rw [hmembers]
      exact List.mem_map_of_mem hp
    · simp only [hmembers, valueOf_clientStub hnodup hparam, Machine.represent, hk]
  have hsizes : ∀ f ∈ (clientStub abi pfx node).inMembers, (M.represent f.type
      ((clientStub abi pfx node).valueOf (node.params.map arg) f.param)).length
      = M.sizeOf f.type := fun _ hf => length_inCell hnodup htyped hf
  rw [ClientStub.enter, call_clientStub hreg, inArgumentOf_eq_block hlen]
  refine Memory.load_of_bytes_eq hkind ?_
  rw [← length_represent hkind]
  refine Memory.bytes_storeAll ?_ ?_ hcell
  · rintro cell hmem
    obtain ⟨f, hf, rfl⟩ := List.mem_map.1 hmem
    rw [hsizes f hf]
    exact M.sizeOf_le _
  · -- the members are apart
    have hapart := List.pairwise_map.1 F.pairwise_inMembers
    refine List.pairwise_map.2 (hapart.imp_of_mem fun {f g} hf hg h => ?_)
    rw [hsizes f hf, hsizes g hg]
    exact h

/-- **What is not output reaches the server unchanged.** -/
theorem received_eq (hbuilds : Builds M abi pfx infos node) (htyped : Typed M pfx node arg)
    (hreg : (clientPartition abi node).canUseCallReg = false)
    {F : Frame M (clientStub abi pfx node)} {inWord outWord : Value} {peel : List Value}
    (hw : BlockWords F arg inWord outWord peel) {i o : Address} (hi : toPointer inWord = some i)
    {m : Memory} {p : Param} (hp : p ∈ node.params) (hdir : p.node.direction ≠ .OUT) {v : Value}
    (h : ∀ k, M.kindOf (getParameterCType pfx p.node) = some k →
      Received M pfx (clientPartition abi node) (ClientStub.enter F (node.params.map arg) m)
        i o peel p k v) : v = arg p := by
  have hspec := clientPartition_spec abi node
  obtain ⟨k, hk⟩ := hbuilds.exists_kind hp
  have harg := htyped p hp k hk
  have h := h k hk
  have hword := hw.inWord_eq
  rcases (hspec.mem_iff p).1 hp with hin | hout | hpeel
  · by_cases hlen : 1 < (clientPartition abi node).inParams.length
    · -- a member of the block
      rw [inArgumentOf_eq_block hlen] at hword
      obtain rfl := Option.some.inj (hi.symm.trans (toPointer_of_toWord hword))
      rw [h.member hin hlen]
      exact enter_member hbuilds.nodup htyped hreg F hin hlen hk m
    · have hsingle : (clientPartition abi node).inParams = [p] := by
        rcases hparams : (clientPartition abi node).inParams with _ | ⟨q, _ | ⟨r, rest⟩⟩
        · rw [hparams] at hin
          cases hin
        · rw [hparams] at hin
          rw [List.mem_singleton.1 hin]
        · rw [hparams] at hlen
          exact absurd (by simp) hlen
      rw [inArgumentOf, hsingle] at hword
      by_cases hptr : p.node.type.isPtr = true
      · -- the caller's pointer
        obtain ⟨a, ha⟩ := hbuilds.exists_pointer htyped hp (.inr hptr)
        simp only [hptr, if_true] at hword
        rw [ClientStub.inWord, ClientStub.wordOf, valueOf_clientStub hbuilds.nodup hp, ha] at hword
        obtain rfl := Option.some.inj (hi.symm.trans (toPointer_of_toWord hword))
        rw [h.pointer hsingle hptr, ha]
      · -- the argument object of the stub
        have hptr := Bool.eq_false_iff.2 hptr
        simp only [hptr, Bool.false_eq_true, if_false] at hword
        obtain rfl := Option.some.inj (hi.symm.trans (toPointer_of_toWord hword))
        rw [h.pointee hsingle hptr]
        exact enter_argument hbuilds.nodup htyped hreg F hsingle hptr hk m
  · exact absurd (hspec.direction_of_mem_out hout) hdir
  · obtain ⟨k', hk', hscalar⟩ := hbuilds.words p hp (.inl (.inr hpeel))
    obtain rfl : k' = k := Option.some.inj (hk'.symm.trans hk)
    exact h.eq_of_peeled hpeel (hw.peel_eq p hpeel) hscalar harg

/-! ### A call with blocks -/

/-- A call that reached the handler, which was given the arguments of the caller, with the pointers
`handed` for the output. -/
structure Delivers (M : Machine) (pfx : Bytes) (node : FunctionNode) (arg : Param → Value)
    (outcome : Outcome) (call : HandlerCall) (handed : Param → Address) : Prop where
  calls : outcome.calls = [call]
  callee : call.callee = node.name
  args : call.args = node.params.map fun p =>
    if p.node.direction = .OUT then .pointer (handed p) else arg p
  status : M.checkSuccess outcome.status = M.checkSuccess call.status
  output : M.checkSuccess outcome.status = true →
    OutputDelivered M pfx node arg handed call.after outcome.memory

/-- The server finds the blocks that it tests for. -/
theorem rejects_eq_false (hnodup : (node.parameters.map ParameterNode.name).Nodup)
    (heq : clientPartition abi node = serverPartition abi infos node)
    (hreg : (clientPartition abi node).canUseCallReg = false)
    {F : Frame M (clientStub abi pfx node)} {inWord outWord : Value} {peel : List Value}
    (hw : BlockWords F arg inWord outWord peel) {i o : Address} (hi : toPointer inWord = some i)
    (ho : toPointer outWord = some o) :
    (dispatchCase abi pfx infos node).rejects (inWord :: outWord :: peel) = false := by
  have hreg' : (serverPartition abi infos node).canUseCallReg = false := heq ▸ hreg
  rw [rejects_dispatchCase hi ho, Bool.or_eq_false_iff, Bool.and_eq_false_iff,
    Bool.and_eq_false_iff, decide_eq_false_iff_not, decide_eq_false_iff_not]
  constructor
  · by_cases hchecks : (dispatchCase abi pfx infos node).checksIn = true
    · right
      -- where the server tests the input, the client passes a block of its own
      have hblock := (checksIn_dispatchCase hreg').1 hchecks
      rw [← heq] at hblock
      refine (inPointer_eq hnodup hw.inWord_eq hi).2 ?_ fun q hq hptr => ?_
      · rintro hnil
        rw [hnil] at hblock
        simp at hblock
      · rw [hq] at hblock
        rcases hblock with hlen | ⟨p, hp, hno⟩
        · exact absurd hlen (lt_irrefl 1)
        · rw [List.cons.inj hp |>.1] at hptr
          exact absurd (hptr.symm.trans hno) (by decide)
    · exact .inl (Bool.eq_false_iff.2 hchecks)
  · by_cases hchecks : (dispatchCase abi pfx infos node).checksOut = true
    · exact .inr (outPointer_ne_null hreg' hw.outWord_eq ho hchecks)
    · exact .inl (Bool.eq_false_iff.2 hchecks)

/-- The output of a single pointer is stored where the caller wants it. -/
theorem outputDelivered_of_passesThrough (hnodup : (node.parameters.map ParameterNode.name).Nodup)
    {F : Frame M (clientStub abi pfx node)} {outWord : Value} {o : Address}
    (hword : ClientStub.outWord F (node.params.map arg) (outArgumentOf (clientPartition abi node))
      = some outWord) (ho : toPointer outWord = some o) (hpasses : PassesThrough abi node)
    (memory : Memory) :
    OutputDelivered M pfx node arg (outAddress M pfx (clientPartition abi node) o) memory
      memory := by
  obtain ⟨q, hq, hptr⟩ := hpasses
  rintro p hp hdir b ⟨a, ha, hne, hwithin⟩
  have honly : ∀ r ∈ node.params, r.node.direction = .OUT → r = q := by
    intro r hr hrdir
    have hmem : r ∈ (clientPartition abi node).outParams := mem_outParams_iff.2 ⟨hr, hrdir⟩
    rw [hq] at hmem
    exact List.mem_singleton.1 hmem
  obtain rfl := honly p hp hdir
  have hargument : outArgumentOf (clientPartition abi node) = .pointer p := by
    rw [outArgumentOf, hq]
    exact if_pos hptr
  rw [hargument, ClientStub.outWord, ClientStub.wordOf, valueOf_clientStub hnodup hp, ha] at hword
  obtain rfl : a = o := Option.some.inj ((toPointer_of_toWord hword).symm.trans ho)
  have hself : outAddress M pfx (clientPartition abi node) a p + (b - a) = b := by
    have hlen : (clientPartition abi node).outParams.length = 1 := by rw [hq]; rfl
    rw [outAddress, if_pos hlen, BitVec.add_comm, BitVec.sub_add_cancel]
  exact ⟨p, hp, hdir, fun r hr hrdir _ => by rw [honly r hr hrdir], a, ha, hne, hwithin,
    by rw [hself]⟩

/-- What the stub does behind a call that succeeded delivers the output. -/
theorem exists_copied (hbuilds : Builds M abi pfx infos node) (htyped : Typed M pfx node arg)
    (hreg : (clientPartition abi node).canUseCallReg = false)
    {F : Frame M (clientStub abi pfx node)} {outWord : Value} {o : Address}
    (hword : ClientStub.outWord F (node.params.map arg) (outArgumentOf (clientPartition abi node))
      = some outWord) (ho : toPointer outWord = some o) (hapart : OutputApart F arg)
    (after : Memory) :
    ∃ memory, (clientStub abi pfx node).copyOut.foldlM
        (ClientStub.copyBack F (node.params.map arg)) after = some memory ∧
      OutputDelivered M pfx node arg (outAddress M pfx (clientPartition abi node) o) after
        memory := by
  by_cases hpasses : PassesThrough abi node
  · -- the handler wrote through the caller's own pointer
    have hcopy : (clientStub abi pfx node).copyOut = [] := by
      obtain ⟨q, hq, hptr⟩ := hpasses
      rw [clientStub_of_block hreg]
      show copyOutOf _ = _
      rw [copyOutOf, hq]
      exact if_pos hptr
    rw [hcopy]
    exact ⟨after, rfl, outputDelivered_of_passesThrough hbuilds.nodup hword ho hpasses after⟩
  · obtain ⟨memory, hcopied, hdelivered, -⟩ :=
      exists_outputDelivered hbuilds htyped hreg hpasses hapart after
    refine ⟨memory, hcopied, fun p hp hdir b hb => ?_⟩
    have hne : (clientPartition abi node).outParams ≠ [] :=
      List.ne_nil_of_mem (mem_outParams_iff.2 ⟨hp, hdir⟩)
    rw [outPointer_eq hne hpasses hword ho]
    exact hdelivered p hp hdir b hb

/-- A call with blocks. -/
theorem delivers_of_block (hbuilds : Builds M abi pfx infos node) (hown : OwnNames abi infos node)
    (heq : clientPartition abi node = serverPartition abi infos node)
    (hreg : (clientPartition abi node).canUseCallReg = false)
    (F : Frame M (clientStub abi pfx node)) {query : Int} (hquery : M.checkSuccess query = true)
    (handler : Handler) (htyped : Typed M pfx node arg) (hapart : OutputApart F arg) (m : Memory) :
    ∃ outcome call handed, ClientStub.run F query ((dispatchCase abi pfx infos node).run M handler)
        (node.params.map arg) m = some outcome ∧
      Delivers M pfx node arg outcome call handed := by
  obtain ⟨inWord, outWord, peel, hwords, hw⟩ := passed_callN hbuilds htyped hreg F
  obtain ⟨i, -, hi, -⟩ := hw.isRegister_in.exists_pointer
  obtain ⟨o, -, ho, -⟩ := hw.isRegister_out.exists_pointer
  have hreg' : (serverPartition abi infos node).canUseCallReg = false := heq ▸ hreg
  obtain ⟨received, hlocals, hreceived⟩ := exists_locals hbuilds hreg' hw.isRegister_in hi
    hw.isRegister_out ho hw.isRegister_peel hw.length_peel
    (ClientStub.enter F (node.params.map arg) m)
  have hcase := run_dispatchCase handler (hbuilds.dispatchCase hown)
    (rejects_eq_false hbuilds.nodup heq hreg hw hi ho) hlocals
  have hrun := run_clientStub ((dispatchCase abi pfx infos node).run M handler) m
    hbuilds.clientStub hquery hwords
  rw [hcase, Option.bind_some] at hrun
  rw [← heq] at hreceived
  have hargs : node.params.map received = node.params.map fun p =>
      if p.node.direction = .OUT then
        .pointer (outAddress M pfx (clientPartition abi node) o p)
      else arg p := by
    refine List.map_congr_left fun p hp => ?_
    obtain ⟨k, hk⟩ := hbuilds.exists_kind hp
    split_ifs with hdir
    · exact (hreceived p hp k hk).output hdir
    · exact received_eq hbuilds htyped hreg hw hi hp hdir (hreceived p hp)
  set vs := node.params.map received
  set m₁ := ClientStub.enter F (node.params.map arg) m
  by_cases hstatus : M.checkSuccess (handler vs m₁).1 = true
  · obtain ⟨memory, hcopied, hdelivered⟩ :=
      exists_copied hbuilds htyped hreg hw.outWord_eq ho hapart (handler vs m₁).2
    rw [if_pos hstatus, hcopied] at hrun
    exact ⟨_, _, _, hrun, rfl, rfl, hargs, M.checkSuccess_statusSuccess.trans hstatus.symm,
      fun _ => hdelivered⟩
  · rw [if_neg hstatus] at hrun
    exact ⟨_, _, _, hrun, rfl, rfl, hargs, rfl, fun hsuccess => absurd hsuccess hstatus⟩

/-! ### A call with registers alone -/

/-- There is no block to test. -/
theorem rejects_of_canUseCallReg (hreg : (serverPartition abi infos node).canUseCallReg = true)
    (words : List Value) : (dispatchCase abi pfx infos node).rejects words = false := by
  rw [DispatchCase.rejects, checksIn_of_canUseCallReg hreg, checksOut_of_canUseCallReg hreg,
    Bool.false_and, Bool.false_and, Bool.or_false]

theorem argExpression_of_canUseCallReg
    (hreg : (serverPartition abi infos node).canUseCallReg = true) {p : Param}
    (hp : p ∈ node.params) :
    argExpression pfx (serverPartition abi infos node) p = .slot p.index := by
  obtain ⟨hdir, hptr, harray⟩ := isValue_of_canUseCallReg hreg p hp
  rw [argExpression, if_pos hreg]
  exact if_neg (by simp [parameterUsesPointerArgument, hdir, hptr, harray])

/-- The server reads from the slots what the client put there. -/
theorem mapM_localValue_of_canUseCallReg
    (hreg : (serverPartition abi infos node).canUseCallReg = true)
    (hbuilds : Builds M abi pfx infos node) (htyped : Typed M pfx node arg) {slot : Param → Value}
    (hslot : ∀ p ∈ node.params, toWord (arg p) = some (slot p)) (m : Memory) :
    (dispatchCase abi pfx infos node).locals.mapM
      ((dispatchCase abi pfx infos node).localValue M (node.params.map slot) m)
        = some (node.params.map arg) := by
  rw [locals_dispatchCase, List.mapM_map]
  refine mapM_eq_some_map fun p hp => ?_
  obtain ⟨k, hk, hscalar⟩ := hbuilds.words p hp (.inr (.inl hreg))
  have hget : (node.params.map slot)[p.index]? = some (slot p) := by
    rw [List.getElem?_map, FunctionNode.getElem?_index hp, Option.map_some]
  have hback := cast_toWord hscalar (htyped p hp k hk)
  rw [hslot p hp, Option.bind_some] at hback
  show (dispatchCase abi pfx infos node).localValue M _ _ ⟨_, p, _⟩ = _
  rw [DispatchCase.localValue, argExpression_of_canUseCallReg hreg hp, DispatchCase.evaluate, hget,
    hk]
  exact hback

theorem delivers_of_callReg (hbuilds : Builds M abi pfx infos node)
    (hown : OwnNames abi infos node)
    (heq : clientPartition abi node = serverPartition abi infos node)
    (hreg : (clientPartition abi node).canUseCallReg = true)
    (F : Frame M (clientStub abi pfx node)) {query : Int} (hquery : M.checkSuccess query = true)
    (handler : Handler) (htyped : Typed M pfx node arg) (m : Memory) :
    ∃ outcome call handed, ClientStub.run F query ((dispatchCase abi pfx infos node).run M handler)
        (node.params.map arg) m = some outcome ∧
      Delivers M pfx node arg outcome call handed := by
  have hreg' : (serverPartition abi infos node).canUseCallReg = true := heq ▸ hreg
  have hall : ∀ p ∈ node.params, ∃ w, toWord (arg p) = some w ∧
      (clientStub abi pfx node).wordOf (node.params.map arg) p = some w :=
    fun p hp => exists_wordOf abi hbuilds.nodup htyped hp (hbuilds.words p hp (.inl (.inl hreg)))
  choose! slot hslot hword using hall
  have hwords : ClientStub.passed F (node.params.map arg) = some (node.params.map slot) := by
    have hcall : (clientStub abi pfx node).call = .callK node.params := by
      rw [clientStub_of_callReg hreg]
    rw [ClientStub.passed, hcall]
    exact mapM_eq_some_map hword
  have hlocals := mapM_localValue_of_canUseCallReg hreg' hbuilds htyped hslot
    (ClientStub.enter F (node.params.map arg) m)
  have hcase := run_dispatchCase handler (hbuilds.dispatchCase hown)
    (rejects_of_canUseCallReg hreg' (node.params.map slot)) hlocals
  have hrun := run_clientStub ((dispatchCase abi pfx infos node).run M handler) m
    hbuilds.clientStub hquery hwords
  have hcopy : (clientStub abi pfx node).copyOut = [] := by rw [clientStub_of_callReg hreg]
  rw [hcase, Option.bind_some, hcopy] at hrun
  -- values are input, so there is no output to deliver
  have hnone : ∀ p ∈ node.params, p.node.direction ≠ .OUT := by
    intro p hp hdir
    rw [direction_eq_of_canUseCallReg hreg hp] at hdir
    cases hdir
  have hargs : node.params.map arg = node.params.map fun p =>
      if p.node.direction = .OUT then .pointer 0 else arg p :=
    List.map_congr_left fun p hp => (if_neg (hnone p hp)).symm
  by_cases hstatus : M.checkSuccess
      (handler (node.params.map arg) (ClientStub.enter F (node.params.map arg) m)).1 = true
  · rw [if_pos hstatus] at hrun
    exact ⟨_, _, fun _ => 0, hrun, rfl, rfl, hargs, M.checkSuccess_statusSuccess.trans hstatus.symm,
      fun _ p hp hdir => absurd hdir (hnone p hp)⟩
  · rw [if_neg hstatus] at hrun
    exact ⟨_, _, fun _ => 0, hrun, rfl, rfl, hargs, rfl,
      fun _ p hp hdir => absurd hdir (hnone p hp)⟩

/-! ### Both kinds of call -/

/-- **A call reaches the handler with the arguments of the caller.** -/
theorem delivers_clientStub (hsize : ∀ p ∈ node.parameters, p.type.typeSize = 0)
    (hknown : SizesKnown abi infos node) (hbuilds : Builds M abi pfx infos node)
    (hown : OwnNames abi infos node) (F : Frame M (clientStub abi pfx node)) {query : Int}
    (hquery : M.checkSuccess query = true) (handler : Handler) (htyped : Typed M pfx node arg)
    (hapart : OutputApart F arg) (m : Memory) :
    ∃ outcome call handed, ClientStub.run F query ((dispatchCase abi pfx infos node).run M handler)
        (node.params.map arg) m = some outcome ∧
      Delivers M pfx node arg outcome call handed := by
  have heq := clientPartition_eq_server hsize hknown
  by_cases hreg : (clientPartition abi node).canUseCallReg = true
  · exact delivers_of_callReg hbuilds hown heq hreg F hquery handler htyped m
  · exact delivers_of_block hbuilds hown heq (Bool.eq_false_iff.2 hreg) F hquery handler htyped
      hapart m

end Delivery

/-- **A call of the pair that is generated from an artifact delivers its values.** -/
theorem call_delivers (bs : Bytes) (interface : InterfaceNode) (h : sifRead bs = .ok interface)
    (f : FunctionNode) (hf : f ∈ functionsOf interface.abiversions)
    (hnames : ∀ p ∈ f.parameters, p.name ∉ dispatcherNames)
    (hknown : SizesKnown x86_64 (typeValueInfos interface) f) (M : Machine)
    (hbuilds : Builds M x86_64 interface.prefixStr (typeValueInfos interface) f)
    (F : Frame M (clientStub x86_64 interface.prefixStr f)) (query : Int)
    (hquery : M.checkSuccess query = true) (handler : Handler) (arg : Param → Value)
    (htyped : Typed M interface.prefixStr f arg) (hapart : OutputApart F arg) (m : Memory) :
    ∃ outcome call handed,
      ClientStub.run F query
        ((dispatchCase x86_64 interface.prefixStr (typeValueInfos interface) f).run M handler)
        (f.params.map arg) m = some outcome ∧
      Delivers M interface.prefixStr f arg outcome call handed :=
  delivers_clientStub (fun _ hp => typeSize_of_sifRead h hf hp) hknown hbuilds
    (ownNames_of_notMem hnames) F hquery handler htyped hapart m

/-! ### A function with two outputs -/

/-- `f(in s8 x, out u32 a, out u32 b)` -/
def twoOutputs : FunctionNode :=
  { name := ascii "f", annotations := [], id := 0
    parameters := [⟨.IN, .named false 0 (ascii "s8"), ascii "x", []⟩,
      ⟨.OUT, .named false 0 (ascii "u32"), ascii "a", []⟩,
      ⟨.OUT, .named false 0 (ascii "u32"), ascii "b", []⟩] }

def firstOutput : Param :=
  ⟨1, .OUT, .named false 0 (ascii "u32"), ascii "a", []⟩

def secondOutput : Param :=
  ⟨2, .OUT, .named false 0 (ascii "u32"), ascii "b", []⟩

/-- `f(out const u32 x)` -/
def constOutput : FunctionNode :=
  outFunction (.named true 0 (ascii "u32"))

/-- `f(in u32 int)` -/
def keywordInput : FunctionNode :=
  { name := ascii "f", annotations := [], id := 0
    parameters := [⟨.IN, .named false 0 (ascii "u32"), ascii "int", []⟩] }

/-- `-5`, and where the output goes. -/
def twoOutputsArg (a b : Address) (p : Param) : Value :=
  match p.index with
  | 0 => .integer (-5)
  | 1 => .pointer a
  | _ => .pointer b

/-- Stores `1` through the first pointer, then `2` through the second. -/
def storeBoth : Handler
  | [_, .pointer a, .pointer b], m =>
    (0, (m.store a (.integer 4 false) (.integer 1)).store b (.integer 4 false) (.integer 2))
  | _, m => (0, m)

theorem compiles_twoOutputs :
    ((clientStub x86_64 (ascii "smp") twoOutputs).Compiles lp64 ∧
      (dispatchCase x86_64 (ascii "smp") ((ascii "S", 0) :: registerBuiltinTypeInfos)
        twoOutputs).Compiles lp64) ∧
      FitsLow (clientStub x86_64 (ascii "smp") twoOutputs) := by
  decide +kernel

theorem fitsLow_twoOutputs : FitsLow (clientStub x86_64 (ascii "smp") twoOutputs) :=
  compiles_twoOutputs.2

theorem builds_twoOutputs : Builds lp64 x86_64 (ascii "smp")
    (typeValueInfos (sampleRead (revisionOf twoOutputs))) twoOutputs := by
  rw [typeValueInfos_revisionOf]
  exact (compiles_iff_builds.1 compiles_twoOutputs.1).1

theorem kindOf_twoOutputs : ∀ p ∈ twoOutputs.params,
    lp64.kindOf (getParameterCType (ascii "smp") p.node)
      = some (if p.index = 0 then .integer 1 true else .pointer) := by
  decide +kernel

theorem typed_twoOutputs (a b : Address) :
    Typed lp64 (ascii "smp") twoOutputs (twoOutputsArg a b) := by
  intro p hp k hk
  obtain rfl : _ = k := Option.some.inj ((kindOf_twoOutputs p hp).symm.trans hk)
  rcases hindex : p.index with _ | _ | n
  · simp only [twoOutputsArg, hindex]
    decide
  · simp only [twoOutputsArg, hindex]
    exact trivial
  · simp only [twoOutputsArg, hindex]
    exact trivial

/-- Two locations that overlap in their second half. -/
theorem outputApart_twoOutputs :
    OutputApart (lowFrame fitsLow_twoOutputs) (twoOutputsArg 0x5000 0x5002) := by
  refine outputApart_lowFrame fitsLow_twoOutputs
    (fun p => if p.index = 1 then 0x5000 else 0x5002) ?_
  decide +kernel

theorem sizesKnown_samples : ∀ f ∈ [twoOutputs, constOutput, keywordInput],
    SizesKnown x86_64 (typeValueInfos (sampleRead (revisionOf f))) f := by
  intro f hf
  rw [typeValueInfos_revisionOf]
  unfold SizesKnown
  revert f
  decide +kernel

/-- The call is made, and both outputs arrive as far as they do not overlap. -/
theorem call_delivers_twoOutputs :
    ∃ outcome call handed,
      ClientStub.run (lowFrame fitsLow_twoOutputs) 0
        ((dispatchCase x86_64 (sampleRead (revisionOf twoOutputs)).prefixStr
          (typeValueInfos (sampleRead (revisionOf twoOutputs))) twoOutputs).run lp64 storeBoth)
        (twoOutputs.params.map (twoOutputsArg 0x5000 0x5002)) (fun _ => 0) = some outcome ∧
      Delivers lp64 (ascii "smp") twoOutputs (twoOutputsArg 0x5000 0x5002) outcome call handed :=
  call_delivers _ _ (sifRead_sampleRead rfl (by decide)) twoOutputs (mem_functionsOf_revisionOf rfl)
    (by decide) (sizesKnown_samples _ (.head _)) lp64 builds_twoOutputs (lowFrame fitsLow_twoOutputs) 0 rfl
    storeBoth _ (typed_twoOutputs _ _) outputApart_twoOutputs _

/-- What the handler is called with, and what it stores, where both outputs are sent to one
location. -/
theorem run_twoOutputs_shared :
    (ClientStub.run (lowFrame fitsLow_twoOutputs) 0
      ((dispatchCase x86_64 (ascii "smp") ((ascii "S", 0) :: registerBuiltinTypeInfos)
        twoOutputs).run lp64 storeBoth)
      (twoOutputs.params.map (twoOutputsArg 0x5000 0x5000)) fun _ => 0).map
        (fun outcome => (outcome.status, outcome.calls.map fun call =>
          (call.args, call.after 0x2000, call.after 0x2008)))
      = some (0, [([.integer (-5), .pointer 0x2000, .pointer 0x2008], 1, 2)]) := by
  decide +kernel

theorem run_of_not_compiles {M : Machine} {stub : ClientStub} (F : Frame M stub) (query : Int)
    (transport : List Value → Memory → Option Outcome) (args : List Value) (m : Memory)
    (h : ¬stub.Compiles M) : ClientStub.run F query transport args m = none := by
  rw [ClientStub.run]
  exact if_neg h

/-- One location for two outputs holds the second one only. Output that is `const`, and a parameter
called like a keyword, cannot be compiled. -/
theorem not_delivers_each :
    (sifRead (CellFormat.encode (sampleRead (revisionOf twoOutputs)).layout)
        = .ok (sampleRead (revisionOf twoOutputs)) ∧
      twoOutputs ∈ functionsOf (sampleRead (revisionOf twoOutputs)).abiversions ∧
      (twoOutputs.parameters.map ParameterNode.name).Nodup ∧
      (∀ p ∈ twoOutputs.parameters, p.name ∉ dispatcherNames) ∧
      SizesKnown x86_64 (typeValueInfos (sampleRead (revisionOf twoOutputs))) twoOutputs ∧
      ¬∃ outcome call, ∃ handed : Param → Address,
        ClientStub.run (lowFrame fitsLow_twoOutputs) 0
          ((dispatchCase x86_64 (sampleRead (revisionOf twoOutputs)).prefixStr
            (typeValueInfos (sampleRead (revisionOf twoOutputs))) twoOutputs).run lp64 storeBoth)
          (twoOutputs.params.map (twoOutputsArg 0x5000 0x5000)) (fun _ => 0) = some outcome ∧
        outcome.calls = [call] ∧
        (∀ p ∈ twoOutputs.params, p.node.direction = .OUT →
          call.args[p.index]? = some (.pointer (handed p))) ∧
        (lp64.checkSuccess outcome.status = true →
          ∀ p ∈ twoOutputs.params, p.node.direction = .OUT →
            outcome.memory 0x5000 = call.after (handed p))) ∧
    ∀ f ∈ [constOutput, keywordInput],
      sifRead (CellFormat.encode (sampleRead (revisionOf f)).layout)
        = .ok (sampleRead (revisionOf f)) ∧
      f ∈ functionsOf (sampleRead (revisionOf f)).abiversions ∧
      (f.parameters.map ParameterNode.name).Nodup ∧
      (∀ p ∈ f.parameters, p.name ∉ dispatcherNames) ∧
      SizesKnown x86_64 (typeValueInfos (sampleRead (revisionOf f))) f ∧
      ∀ (F : Frame lp64 (clientStub x86_64 (ascii "smp") f)) query transport args m,
        ClientStub.run F query transport args m = none := by
  refine ⟨⟨sifRead_sampleRead rfl (by decide), mem_functionsOf_revisionOf rfl, by decide, by decide,
    sizesKnown_samples _ (.head _), ?_⟩, ?_⟩
  · rintro ⟨outcome, call, handed, hrun, hcalls, hhanded, houtput⟩
    rw [typeValueInfos_revisionOf] at hrun
    obtain ⟨shared, hshared, hvalues⟩ := Option.map_eq_some_iff.1 run_twoOutputs_shared
    obtain rfl : shared = outcome := Option.some.inj (hshared.symm.trans hrun)
    rw [hcalls, List.map_singleton, Prod.mk.injEq, List.cons.injEq, Prod.mk.injEq,
      Prod.mk.injEq] at hvalues
    obtain ⟨hstatus, ⟨hargs, hfirst, hsecond⟩, -⟩ := hvalues
    -- the pointers for the two outputs are the members of the block
    have hparams : twoOutputs.params[1]? = some firstOutput ∧
        twoOutputs.params[2]? = some secondOutput := ⟨rfl, rfl⟩
    have hfirstMem := List.mem_of_getElem? hparams.1
    have hsecondMem := List.mem_of_getElem? hparams.2
    have hfirstHanded : handed firstOutput = 0x2000 := by
      have hget := hhanded firstOutput hfirstMem rfl
      rw [hargs] at hget
      exact (Value.pointer.inj (Option.some.inj hget)).symm
    have hsecondHanded : handed secondOutput = 0x2008 := by
      have hget := hhanded secondOutput hsecondMem rfl
      rw [hargs] at hget
      exact (Value.pointer.inj (Option.some.inj hget)).symm
    have hsuccess : lp64.checkSuccess shared.status = true := by rw [hstatus]; rfl
    have hboth := (houtput hsuccess firstOutput hfirstMem rfl).symm.trans
      (houtput hsuccess secondOutput hsecondMem rfl)
    rw [hfirstHanded, hsecondHanded, hfirst, hsecond] at hboth
    exact absurd hboth (by decide)
  · have hcompiles : ∀ f ∈ [constOutput, keywordInput],
        ¬(clientStub x86_64 (ascii "smp") f).Compiles lp64 := by decide +kernel
    have hbare : ∀ f ∈ [constOutput, keywordInput], f.bare = f :=
      List.forall_mem_cons.2 ⟨rfl, List.forall_mem_singleton.2 rfl⟩
    have hread : ∀ f ∈ [constOutput, keywordInput],
        sifRead (CellFormat.encode (sampleRead (revisionOf f)).layout)
          = .ok (sampleRead (revisionOf f)) := by
      refine List.forall_mem_cons.2 ⟨sifRead_sampleRead rfl (by decide), ?_⟩
      exact List.forall_mem_singleton.2 (sifRead_sampleRead rfl (by decide))
    intro f hf
    refine ⟨hread f hf, mem_functionsOf_revisionOf (f := f) ?_, ?_, ?_, sizesKnown_samples f (.tail _ hf),
      fun F query transport args m => run_of_not_compiles F query transport args m
        (hcompiles f hf)⟩
    · exact hbare f hf
    · revert f
      decide
    · revert f
      decide

end Sidlc
