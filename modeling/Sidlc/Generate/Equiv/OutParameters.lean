import Sidlc.Generate.Equiv.Calls

/-!
# Output parameters

A stub that is called with blocks keeps the output in variables of its own and copies it to the
caller when the call succeeds. Only the output of a single parameter of a pointer type is not kept:
the caller's pointer itself goes to the handler, `NULL` or not. And a handler that is lent other
memory to store to can be lent the caller's locations. So the output of a function is handled alike
for all its parameters exactly when none of this is the case, or no call gets as far as the handler
(`outputUniform_iff`).
-/

namespace Sidlc

open CValue

section OutParameters

variable {M : Machine} {abi : ArchAbi} {pfx : Bytes} {infos : TypeValueInfos} {node : FunctionNode}
  {arg : Param → Value}

/-- The memory that the caller's values for the other parameters lead the handler to. -/
def Lent (M : Machine) (pfx : Bytes) (node : FunctionNode) (lent : Param → Address → Prop) : Prop :=
  ∀ p ∈ node.params, ∀ b, lent p b →
    p.node.direction ≠ .OUT ∧ M.lends (getParameterCType pfx p.node) = true

/-- The handler stores through the pointers it is given for its output parameters, and to the memory
that it is lent. -/
def StoresThrough (M : Machine) (pfx : Bytes) (node : FunctionNode) (lent : Param → Address → Prop)
    (handler : Handler) : Prop :=
  ∀ vs m b, (handler vs m).2 b ≠ m b →
    (∃ p ∈ node.params, p.node.direction = .OUT ∧
      ∃ a, vs[p.index]? = some (.pointer a) ∧ Within a (outSize M pfx p) b) ∨
    ∃ p ∈ node.params, lent p b

/-- The output of the caller is apart from the variables of the stub. -/
def OutputApart (F : Frame M (clientStub abi pfx node)) (arg : Param → Value) : Prop :=
  ∀ p ∈ node.params, p.node.direction = .OUT → ∀ b, InOutput M pfx arg p b → ¬F.Holds b

/-- Every byte of the output of the caller holds what was stored through the pointer `handed` of a
parameter that it belongs to, of the last one where it belongs to several. -/
def OutputDelivered (M : Machine) (pfx : Bytes) (node : FunctionNode) (arg : Param → Value)
    (handed : Param → Address) (after memory : Memory) : Prop :=
  ∀ p ∈ node.params, p.node.direction = .OUT → ∀ b, InOutput M pfx arg p b →
    ∃ q ∈ node.params, q.node.direction = .OUT ∧
      (∀ r ∈ node.params, r.node.direction = .OUT → InOutput M pfx arg r b → r.index ≤ q.index) ∧
      ∃ a, arg q = .pointer a ∧ a ≠ 0 ∧ Within a (outSize M pfx q) b ∧
        memory b = after (handed q + (b - a))

/-- What a call does with the output of its caller. -/
structure OutputHandled (F : Frame M (clientStub abi pfx node)) (lent : Param → Address → Prop)
    (arg : Param → Value) (m : Memory) (outcome : Outcome) : Prop where
  /-- The handler is given pointers that are not `NULL`. -/
  receives : ∀ call ∈ outcome.calls, ∀ p ∈ node.params, p.node.direction = .OUT →
    ∃ b, call.args[p.index]? = some (.pointer b) ∧ b ≠ 0
  /-- Nothing is stored through `NULL`. -/
  ignoresNull : ∀ p ∈ node.params, p.node.direction = .OUT → arg p = .pointer 0 →
    ∀ b, Within 0 (outSize M pfx p) b → ¬F.Holds b → (∀ q ∈ node.params, ¬lent q b) →
      (∀ q ∈ node.params, q.node.direction = .OUT → ¬InOutput M pfx arg q b) →
      outcome.memory b = m b
  /-- A failure changes nothing. -/
  onFailure : M.checkSuccess outcome.status = false → ∀ p ∈ node.params, p.node.direction = .OUT →
    ∀ b, InOutput M pfx arg p b → outcome.memory b = m b
  /-- Success leaves what the handler stored. -/
  onSuccess : M.checkSuccess outcome.status = true → ∃ call ∈ outcome.calls,
    ∃ handed : Param → Address,
      (∀ p ∈ node.params, p.node.direction = .OUT →
        call.args[p.index]? = some (.pointer (handed p))) ∧
      OutputDelivered M pfx node arg handed call.after outcome.memory

/-- Whatever the caller passes and lends, and the handler stores, a call of the generated pair
handles the output. -/
def OutputUniform (infos : TypeValueInfos) (F : Frame M (clientStub abi pfx node)) : Prop :=
  ∀ query handler arg lent m, Typed M pfx node arg → OutputApart F arg → Lent M pfx node lent →
    StoresThrough M pfx node lent handler →
    ∃ outcome, ClientStub.run F query ((dispatchCase abi pfx infos node).run M handler)
        (node.params.map arg) m = some outcome ∧
      OutputHandled F lent arg m outcome

/-! ### Output on both sides -/

theorem pairwise_outParams (abi : ArchAbi) (node : FunctionNode) :
    (clientPartition abi node).outParams.Pairwise fun p q => p.index < q.index := by
  rw [(clientPartition_spec abi node).outParams]
  exact node.pairwise_params.filter _

theorem outAddress_server (o : Address) (p : Param) :
    outAddress M pfx (serverPartition abi infos node) o p
      = outAddress M pfx (clientPartition abi node) o p := by
  rw [outAddress, outAddress, outFields, outFields, outParams_eq]

/-- With output, no side uses registers alone. -/
theorem canUseCallReg_server (abi : ArchAbi) (infos : TypeValueInfos) {p : Param}
    (hp : p ∈ node.params) (hdir : p.node.direction = .OUT) :
    (serverPartition abi infos node).canUseCallReg = false := by
  rw [(serverPartition_spec abi infos node).canUseCallReg, Bool.and_eq_false_iff]
  refine .inr (List.all_eq_false.2 ⟨p, hp, fun h => ?_⟩)
  have hin := (isScalarInRegisterParam_iff.1 h).1
  rw [hdir] at hin
  cases hin

/-- Output goes through pointers of the caller. -/
theorem Builds.exists_output (h : Builds M abi pfx infos node) (htyped : Typed M pfx node arg) :
    ∀ p ∈ (clientPartition abi node).outParams, ∃ a, arg p = .pointer a := by
  intro p hp
  obtain ⟨hparam, hdir⟩ := mem_outParams_iff.1 hp
  exact h.exists_pointer htyped hparam (.inl (by rw [hdir]; decide))

/-- The pointer that the server finds for the output, where the stub keeps it. -/
theorem outPointer_eq {F : Frame M (clientStub abi pfx node)} {outWord : Value} {o : Address}
    (hne : (clientPartition abi node).outParams ≠ []) (hpasses : ¬PassesThrough abi node)
    (hword : ClientStub.outWord F (node.params.map arg) (outArgumentOf (clientPartition abi node))
      = some outWord) (ho : toPointer outWord = some o) : o = F.outBuffer := by
  have hargument : outArgumentOf (clientPartition abi node) = .buffer := by
    unfold outArgumentOf
    rcases hparams : (clientPartition abi node).outParams with _ | ⟨p, _ | ⟨q, rest⟩⟩
    · exact absurd hparams hne
    · have hptr : ¬p.node.type.isPtr = true := fun hptr => hpasses ⟨p, hparams, hptr⟩
      simp [hptr]
    · rfl
  rw [hargument] at hword
  exact Option.some.inj (ho.symm.trans (toPointer_of_toWord hword))

/-- The pointer that the server finds for the input. It is `NULL` only where there is none, or where
the caller passes it. -/
theorem inPointer_eq (hnodup : (node.parameters.map ParameterNode.name).Nodup)
    {F : Frame M (clientStub abi pfx node)} {inWord : Value} {i : Address}
    (hword : ClientStub.inWord F (node.params.map arg) (inArgumentOf (clientPartition abi node))
      = some inWord) (hi : toPointer inWord = some i) :
    ((clientPartition abi node).inParams = [] → i = 0) ∧
      ((clientPartition abi node).inParams ≠ [] →
        (∀ q, (clientPartition abi node).inParams = [q] → q.node.type.isPtr = true →
          ∃ a, arg q = .pointer a ∧ a ≠ 0) → i ≠ 0) := by
  have hspec := clientPartition_spec abi node
  -- `NULL`, the only input, or a block, by the number of inputs
  unfold inArgumentOf at hword
  rcases hparams : (clientPartition abi node).inParams with _ | ⟨q, _ | ⟨r, rest⟩⟩
  · rw [hparams] at hword
    have hnull : toPointer inWord = some 0 := toPointer_of_toWord hword
    exact ⟨fun _ => Option.some.inj (hi.symm.trans hnull), fun h => absurd rfl h⟩
  · refine ⟨fun h => absurd h (List.cons_ne_nil _ _), fun _ hq => ?_⟩
    simp only [hparams] at hword
    have hmem : q ∈ node.params :=
      (hspec.mem_iff q).2 (.inl (by rw [hparams]; exact List.mem_cons_self))
    split_ifs at hword with hptr
    · obtain ⟨a, ha, hne⟩ := hq q rfl hptr
      have hvalue : (clientStub abi pfx node).wordOf (node.params.map arg) q
        = toWord (.pointer a) := by
        rw [ClientStub.wordOf, valueOf_clientStub hnodup hmem, ha]
        rfl
      have hword : toWord (.pointer a) = some inWord := hvalue.symm.trans hword
      rw [Option.some.inj (hi.symm.trans (toPointer_of_toWord hword))]
      exact hne
    · rw [Option.some.inj (hi.symm.trans (toPointer_of_toWord hword))]
      exact F.argument_ne_null
  · refine ⟨fun h => absurd h (List.cons_ne_nil _ _), fun _ _ => ?_⟩
    simp only [hparams] at hword
    rw [Option.some.inj (hi.symm.trans (toPointer_of_toWord hword))]
    exact F.inBlock_ne_null

theorem checksIn_of_canUseCallReg (hreg : (serverPartition abi infos node).canUseCallReg = true) :
    (dispatchCase abi pfx infos node).checksIn = false := by
  show (!(serverPartition abi infos node).canUseCallReg && _) = false
  rw [hreg, Bool.not_true, Bool.false_and]

theorem checksOut_of_canUseCallReg (hreg : (serverPartition abi infos node).canUseCallReg = true) :
    (dispatchCase abi pfx infos node).checksOut = false := by
  show (!(serverPartition abi infos node).canUseCallReg && _) = false
  rw [hreg, Bool.not_true, Bool.false_and]

theorem checksIn_dispatchCase
    (hreg : (serverPartition abi infos node).canUseCallReg = false) :
    (dispatchCase abi pfx infos node).checksIn = true ↔
      1 < (serverPartition abi infos node).inParams.length ∨
        ∃ p, (serverPartition abi infos node).inParams = [p] ∧ p.node.type.isPtr = false := by
  show (!(serverPartition abi infos node).canUseCallReg && _) = true ↔ _
  rw [hreg, Bool.not_false, Bool.true_and, Bool.or_eq_true, decide_eq_true_eq]
  refine or_congr_right ?_
  rcases (serverPartition abi infos node).inParams with _ | ⟨p, _ | ⟨q, rest⟩⟩
  · simp
  · simp
  · simp

/-- What the client has in slots but the server expects in a block is tested. -/
theorem checksIn_of_inParams_nil
    (hreg : (serverPartition abi infos node).canUseCallReg = false)
    (hclient : (clientPartition abi node).inParams = [])
    (hserver : (serverPartition abi infos node).inParams ≠ []) :
    (dispatchCase abi pfx infos node).checksIn = true := by
  have hspec := clientPartition_spec abi node
  have hspec' := serverPartition_spec abi infos node
  rw [checksIn_dispatchCase hreg]
  rcases hparams : (serverPartition abi infos node).inParams with _ | ⟨p, _ | ⟨q, rest⟩⟩
  · exact absurd hparams hserver
  · refine .inr ⟨p, rfl, ?_⟩
    have hp : p ∈ (serverPartition abi infos node).inParams := by
      rw [hparams]
      exact List.mem_cons_self
    -- without a block on the client, the input is in the slots
    have hpeeled : p ∈ (clientPartition abi node).peeledParams := by
      rcases (hspec.mem_iff p).1 ((hspec'.mem_iff p).2 (.inl hp)) with h | h | h
      · rw [hclient] at h
        cases h
      · exact absurd (hspec.direction_of_mem_out h) (hspec'.direction_of_mem_in hp).1
      · exact h
    have hscalar := hspec.isInScalar_of_mem_peeled hpeeled
    simp only [Partition.IsInScalar, isScalar, Bool.and_eq_true] at hscalar
    simpa using hscalar.2.1.1.2
  · exact .inl (by simp)

theorem rejects_dispatchCase {inWord outWord : Value} {peel : List Value} {i o : Address}
    (hi : toPointer inWord = some i) (ho : toPointer outWord = some o) :
    (dispatchCase abi pfx infos node).rejects (inWord :: outWord :: peel) =
      (((dispatchCase abi pfx infos node).checksIn && decide (i = 0)) ||
        ((dispatchCase abi pfx infos node).checksOut && decide (o = 0))) := by
  have hin : DispatchCase.pointerArg (inWord :: outWord :: peel) 0 = some i := hi
  have hout : DispatchCase.pointerArg (inWord :: outWord :: peel) 1 = some o := ho
  rw [DispatchCase.rejects, hin, hout]
  simp only [Option.some.injEq]

/-- A block for the output is one of the stub. -/
theorem outPointer_ne_null (hreg : (serverPartition abi infos node).canUseCallReg = false)
    {F : Frame M (clientStub abi pfx node)} {outWord : Value} {o : Address}
    (hword : ClientStub.outWord F (node.params.map arg) (outArgumentOf (clientPartition abi node))
      = some outWord) (ho : toPointer outWord = some o)
    (hchecks : (dispatchCase abi pfx infos node).checksOut = true) : o ≠ 0 := by
  have hlen : 1 < (clientPartition abi node).outParams.length := by
    have hchecks : (!(serverPartition abi infos node).canUseCallReg
      && decide ((serverPartition abi infos node).outParams.length > 1)) = true := hchecks
    rw [hreg, outParams_eq, Bool.not_false, Bool.true_and, decide_eq_true_eq] at hchecks
    exact hchecks
  have hout : o = F.outBuffer := by
    refine outPointer_eq ?_ ?_ hword ho
    · exact List.ne_nil_of_length_pos (by omega)
    · rintro ⟨p, hp, -⟩
      rw [hp] at hlen
      exact absurd hlen (lt_irrefl 1)
  rw [hout]
  exact F.outBuffer_ne_null

/-! ### The condition -/

/-- The server rejects every call: it expects input that the client does not pass. -/
def AlwaysRejected (abi : ArchAbi) (infos : TypeValueInfos) (node : FunctionNode) : Prop :=
  (clientPartition abi node).inParams = [] ∧ (serverPartition abi infos node).inParams ≠ []

/-- Where a parameter lends memory, there is no output to be found in it. -/
def LendsNoOutput (M : Machine) (pfx : Bytes) (node : FunctionNode) : Prop :=
  ∀ p ∈ node.params, p.node.direction ≠ .OUT → M.lends (getParameterCType pfx p.node) = true →
    ∀ q ∈ node.params, q.node.direction = .OUT → outSize M pfx q = 0

theorem InOutput.size_ne_zero {p : Param} {b : Address} (h : InOutput M pfx arg p b) :
    outSize M pfx p ≠ 0 := by
  obtain ⟨a, -, -, hwithin⟩ := h
  exact Nat.pos_iff_ne_zero.1 (Nat.zero_lt_of_lt hwithin)

theorem LendsNoOutput.not_lent (h : LendsNoOutput M pfx node) {lent : Param → Address → Prop}
    (hlent : Lent M pfx node lent) {p : Param} (hp : p ∈ node.params)
    (hdir : p.node.direction = .OUT) {b : Address} (hb : InOutput M pfx arg p b) :
    ∀ q ∈ node.params, ¬lent q b := by
  intro q hq hqb
  obtain ⟨hqdir, hlends⟩ := hlent q hq b hqb
  exact hb.size_ne_zero (h q hq hqdir hlends p hp hdir)

/-- A call that ends before the handler leaves the output alone. -/
theorem OutputHandled.of_no_call (hnodup : (node.parameters.map ParameterNode.name).Nodup)
    (htyped : Typed M pfx node arg) {F : Frame M (clientStub abi pfx node)}
    (lent : Param → Address → Prop) {m : Memory} {status : Int}
    (hapart : OutputApart F arg) (hstatus : M.checkSuccess status = false) :
    OutputHandled F lent arg m ⟨status, ClientStub.enter F (node.params.map arg) m, []⟩ where
  receives call hcall := absurd hcall List.not_mem_nil
  ignoresNull _ _ _ _ _ _ hb _ _ := enter_of_not_holds hnodup htyped hb m
  onFailure _ p hp hdir b hb := enter_of_not_holds hnodup htyped (hapart p hp hdir b hb) m
  onSuccess hsuccess := absurd (hstatus.symm.trans hsuccess) (by decide)

theorem getElem?_received {received : Param → Value} {p : Param} (hp : p ∈ node.params) :
    (node.params.map received)[p.index]? = some (received p) := by
  rw [List.getElem?_map, FunctionNode.getElem?_index hp, Option.map_some]

/-- The handler is given the variables of the stub for its output. -/
def GivenOutput (F : Frame M (clientStub abi pfx node)) (vs : List Value) : Prop :=
  ∀ p ∈ node.params, p.node.direction = .OUT → vs[p.index]?
    = some (.pointer (outAddress M pfx (clientPartition abi node) F.outBuffer p))

namespace GivenOutput

variable {F : Frame M (clientStub abi pfx node)} {vs : List Value} {m : Memory}
  {lent : Param → Address → Prop}

theorem mem_objects (hreg : (clientPartition abi node).canUseCallReg = false)
    (hpasses : ¬PassesThrough abi node) (F : Frame M (clientStub abi pfx node)) :
    ∀ p ∈ node.params, p.node.direction = .OUT →
      (outAddress M pfx (clientPartition abi node) F.outBuffer p, outSize M pfx p) ∈ F.objects :=
  fun _ hp hdir => outAddress_mem_objects hreg hpasses F (mem_outParams_iff.2 ⟨hp, hdir⟩)

theorem exists_pointer (h : GivenOutput F vs)
    (hreg : (clientPartition abi node).canUseCallReg = false) (hpasses : ¬PassesThrough abi node) :
    ∀ p ∈ node.params, p.node.direction = .OUT → ∃ b, vs[p.index]? = some (.pointer b) ∧ b ≠ 0 :=
  fun p hp hdir => ⟨_, h p hp hdir, F.objects_ne_null _ (mem_objects hreg hpasses F p hp hdir)⟩

/-- A handler that stores through what it is given leaves other memory alone. -/
theorem after_eq (h : GivenOutput F vs) (hnodup : (node.parameters.map ParameterNode.name).Nodup)
    (htyped : Typed M pfx node arg) (hreg : (clientPartition abi node).canUseCallReg = false)
    (hpasses : ¬PassesThrough abi node) {handler : Handler}
    (hstores : StoresThrough M pfx node lent handler) {b : Address} (hb : ¬F.Holds b)
    (hlent : ∀ p ∈ node.params, ¬lent p b) :
    (handler vs (ClientStub.enter F (node.params.map arg) m)).2 b = m b := by
  by_contra hchanged
  rw [← enter_of_not_holds hnodup htyped hb m] at hchanged
  rcases hstores vs _ b hchanged with ⟨p, hp, hdir, a, ha, hwithin⟩ | ⟨p, hp, hpb⟩
  · -- what it is given for its output is a variable of the stub
    rw [h p hp hdir] at ha
    obtain rfl := Value.pointer.inj (Option.some.inj ha)
    exact hb ⟨_, mem_objects hreg hpasses F p hp hdir, hwithin⟩
  · exact hlent p hp hpb

/-- A handler that fails: nothing is copied. -/
theorem handled_of_failure (h : GivenOutput F vs)
    (hreg : (clientPartition abi node).canUseCallReg = false) (hpasses : ¬PassesThrough abi node)
    (hapart : OutputApart F arg) (hlends : LendsNoOutput M pfx node) (hlent : Lent M pfx node lent)
    {call : HandlerCall} (hargs : call.args = vs) {status : Int}
    (hstatus : M.checkSuccess status = false) {after : Memory}
    (hafter : ∀ b, ¬F.Holds b → (∀ p ∈ node.params, ¬lent p b) → after b = m b) :
    OutputHandled F lent arg m ⟨status, after, [call]⟩ where
  receives c hc p hp hdir := by
    obtain rfl := List.mem_singleton.1 hc
    rw [hargs]
    exact h.exists_pointer hreg hpasses p hp hdir
  ignoresNull p hp hdir hnull b hwithin hb hlent' _ := hafter b hb hlent'
  onFailure _ p hp hdir b hb := hafter b (hapart p hp hdir b hb) (hlends.not_lent hlent hp hdir hb)
  onSuccess hsuccess := absurd (hstatus.symm.trans hsuccess) (by decide)

/-- A handler that succeeds: what it stored is copied through the pointers of the caller. -/
theorem handled_of_copied (h : GivenOutput F vs)
    (hreg : (clientPartition abi node).canUseCallReg = false) (hpasses : ¬PassesThrough abi node)
    {call : HandlerCall} (hargs : call.args = vs) {m' : Memory}
    (hafter : ∀ b, ¬F.Holds b → (∀ p ∈ node.params, ¬lent p b) → call.after b = m b)
    (hdelivered : OutputDelivered M pfx node arg
      (outAddress M pfx (clientPartition abi node) F.outBuffer) call.after m')
    (hother : ∀ b, (∀ p ∈ node.params, p.node.direction = .OUT → ¬InOutput M pfx arg p b) →
      m' b = call.after b) :
    OutputHandled F lent arg m ⟨M.statusSuccess, m', [call]⟩ where
  receives c hc p hp hdir := by
    obtain rfl := List.mem_singleton.1 hc
    rw [hargs]
    exact h.exists_pointer hreg hpasses p hp hdir
  ignoresNull p hp hdir hnull b hwithin hb hlent hout := (hother b hout).trans (hafter b hb hlent)
  onFailure hfailed := absurd (M.checkSuccess_statusSuccess.symm.trans hfailed) (by decide)
  onSuccess _ := ⟨call, List.mem_singleton_self _, _, fun p hp hdir => hargs ▸ h p hp hdir,
    hdelivered⟩

end GivenOutput

/-- **The copies deliver the output.** -/
theorem exists_outputDelivered (hbuilds : Builds M abi pfx infos node)
    (htyped : Typed M pfx node arg) (hreg : (clientPartition abi node).canUseCallReg = false)
    (hpasses : ¬PassesThrough abi node) {F : Frame M (clientStub abi pfx node)}
    (hapart : OutputApart F arg) (after : Memory) :
    ∃ memory, (clientStub abi pfx node).copyOut.foldlM
        (ClientStub.copyBack F (node.params.map arg)) after = some memory ∧
      OutputDelivered M pfx node arg (outAddress M pfx (clientPartition abi node) F.outBuffer)
        after memory ∧
      ∀ b, (∀ p ∈ node.params, p.node.direction = .OUT → ¬InOutput M pfx arg p b) →
        memory b = after b := by
  obtain ⟨memory, hcopied, hleft⟩ := exists_copyOut hbuilds.nodup hreg hpasses
    (clientPartition abi node).outParams (fun _ hp => hp) (pairwise_outParams abi node)
    (hbuilds.exists_output htyped)
    (fun p hp => hapart p (mem_outParams_iff.1 hp).1 (mem_outParams_iff.1 hp).2) after after
    fun _ _ => rfl
  refine ⟨memory, by rw [copyOut_clientStub hreg hpasses, hcopied], ?_, ?_⟩
  · intro p hp hdir b hb
    -- what a byte holds at the end is what was copied there last
    rcases hleft b with ⟨q, hq, a, ha, hne, hwithin, hlast, hval⟩ | ⟨hnone, -⟩
    · obtain ⟨hqparam, hqdir⟩ := mem_outParams_iff.1 hq
      exact ⟨q, hqparam, hqdir, fun r hr hrdir => hlast r (mem_outParams_iff.2 ⟨hr, hrdir⟩), a, ha,
        hne, hwithin, hval⟩
    · exact absurd hb (hnone p (mem_outParams_iff.2 ⟨hp, hdir⟩))
  · intro b hb
    rcases hleft b with ⟨q, hq, a, ha, hne, hwithin, -⟩ | ⟨-, hval⟩
    · obtain ⟨hqparam, hqdir⟩ := mem_outParams_iff.1 hq
      exact absurd ⟨a, ha, hne, hwithin⟩ (hb q hqparam hqdir)
    · exact hval

/-- What the client does not pass is tested by a server that expects it. -/
theorem rejects_of_alwaysRejected (hnodup : (node.parameters.map ParameterNode.name).Nodup)
    (hreg : (serverPartition abi infos node).canUseCallReg = false)
    {F : Frame M (clientStub abi pfx node)} {inWord outWord : Value} {peel : List Value}
    {i o : Address} (hi : toPointer inWord = some i) (ho : toPointer outWord = some o)
    (hword : ClientStub.inWord F (node.params.map arg) (inArgumentOf (clientPartition abi node))
      = some inWord) (halways : AlwaysRejected abi infos node) :
    (dispatchCase abi pfx infos node).rejects (inWord :: outWord :: peel) = true := by
  have hchecks : (dispatchCase abi pfx infos node).checksIn = true :=
    checksIn_of_inParams_nil hreg halways.1 halways.2
  have hnull := (inPointer_eq hnodup hword hi).1 halways.1
  rw [rejects_dispatchCase hi ho, hchecks, hnull]
  rfl

/-- **Output that the stub keeps is handled.** -/
theorem outputUniform_of (hbuilds : Builds M abi pfx infos node) (hown : OwnNames abi infos node)
    (hreg : (clientPartition abi node).canUseCallReg = false)
    (hout : (clientPartition abi node).outParams ≠ []) (F : Frame M (clientStub abi pfx node))
    (hkept : AlwaysRejected abi infos node ∨
      ¬PassesThrough abi node ∧ LendsNoOutput M pfx node) :
    OutputUniform infos F := by
  intro query handler arg lent m htyped hapart hlent hstores
  have hcase := hbuilds.dispatchCase hown
  obtain ⟨p₀, hp₀⟩ := List.exists_mem_of_ne_nil _ hout
  obtain ⟨hparam₀, hdir₀⟩ := mem_outParams_iff.1 hp₀
  have hreg' := canUseCallReg_server abi infos hparam₀ hdir₀
  by_cases hquery : M.checkSuccess query = true
  swap
  · -- no entry point: the stub returns before it stores anything but its own variables
    have hquery := Bool.eq_false_iff.2 hquery
    exact ⟨_, run_of_query _ _ _ hbuilds.clientStub hquery,
      OutputHandled.of_no_call hbuilds.nodup htyped lent hapart hquery⟩
  obtain ⟨inWord, outWord, peel, hwords, hw⟩ := passed_callN hbuilds htyped hreg F
  obtain ⟨i, -, hi, -⟩ := hw.isRegister_in.exists_pointer
  obtain ⟨o, -, ho, -⟩ := hw.isRegister_out.exists_pointer
  have hrun := run_clientStub ((dispatchCase abi pfx infos node).run M handler) m
    hbuilds.clientStub hquery hwords
  by_cases hrejects : (dispatchCase abi pfx infos node).rejects (inWord :: outWord :: peel) = true
  · -- the server refuses the words
    refine ⟨_, ?_, OutputHandled.of_no_call hbuilds.nodup htyped lent hapart
      M.checkSuccess_statusInvalidValue⟩
    rw [hrun, run_of_rejects handler _ hcase hrejects, Option.bind_some,
      M.checkSuccess_statusInvalidValue, if_neg Bool.false_ne_true]
  obtain ⟨hpasses, hlends⟩ := hkept.resolve_left fun halways =>
    hrejects (rejects_of_alwaysRejected hbuilds.nodup hreg' hi ho hw.inWord_eq halways)
  obtain rfl := outPointer_eq hout hpasses hw.outWord_eq ho
  obtain ⟨received, hreceived, hspec⟩ := exists_locals hbuilds hreg' hw.isRegister_in hi
    hw.isRegister_out ho hw.isRegister_peel hw.length_peel
    (ClientStub.enter F (node.params.map arg) m)
  have hgiven : GivenOutput F (node.params.map received) := by
    intro p hp hdir
    obtain ⟨k, hk⟩ := hbuilds.exists_kind hp
    rw [getElem?_received hp, (hspec p hp k hk).output hdir, outAddress_server]
  have hafter := fun b hb => hgiven.after_eq (m := m) (b := b) hbuilds.nodup htyped hreg hpasses
    hstores hb
  rw [run_dispatchCase handler hcase (Bool.eq_false_iff.2 hrejects) hreceived, Option.bind_some]
    at hrun
  set after := handler (node.params.map received) (ClientStub.enter F (node.params.map arg) m)
  by_cases hstatus : M.checkSuccess after.1 = true
  · obtain ⟨m', hfold, hdelivered, hother⟩ :=
      exists_outputDelivered hbuilds htyped hreg hpasses hapart after.2
    rw [if_pos hstatus, hfold] at hrun
    exact ⟨_, hrun, hgiven.handled_of_copied hreg hpasses rfl hafter hdelivered hother⟩
  · rw [if_neg hstatus] at hrun
    exact ⟨_, hrun, hgiven.handled_of_failure hreg hpasses hapart hlends hlent rfl
      (Bool.eq_false_iff.2 hstatus) hafter⟩

/-! ### Calls that reach the handler -/

/-- `a` for the output of `q`, `NULL` for other output, and another pointer for the rest. -/
def outputArg (M : Machine) (pfx : Bytes) (q : Param) (a : Address) (p : Param) : Value :=
  if p.node.direction = .OUT then .pointer (if p = q then a else 0)
  else
    match M.kindOf (getParameterCType pfx p.node) with
    | some .pointer => .pointer 1
    | some k => interpret k (List.replicate k.size 0)
    | none => .pointer 1

theorem outputArg_of_out {p q : Param} {a : Address} (hdir : p.node.direction = .OUT) :
    outputArg M pfx q a p = .pointer (if p = q then a else 0) :=
  if_pos hdir

theorem typed_outputArg (q : Param) (a : Address) : Typed M pfx node (outputArg M pfx q a) := by
  intro p hp k hk
  by_cases hdir : p.node.direction = .OUT
  · obtain rfl : k = .pointer := kind_eq_pointer (.inl (by rw [hdir]; decide)) hk
    rw [outputArg_of_out hdir]
    exact trivial
  · rw [outputArg, if_neg hdir, hk]
    cases k with
    | pointer => exact trivial
    | integer size signed => exact hasKind_interpret List.length_replicate
    | object tag size => exact hasKind_interpret List.length_replicate

theorem outputArg_of_isPtr {p q : Param} {a : Address} (hdir : p.node.direction ≠ .OUT)
    (hptr : p.node.type.isPtr = true) : outputArg M pfx q a p = .pointer 1 := by
  rw [outputArg, if_neg hdir]
  cases hk : M.kindOf (getParameterCType pfx p.node) with
  | none => rfl
  | some k =>
    obtain rfl := kind_eq_pointer (.inr hptr) hk
    rfl

theorem outputApart_outputArg {F : Frame M (clientStub abi pfx node)} {q : Param} {a : Address}
    (ha : a ≠ 0 → ∀ b, Within a (outSize M pfx q) b → ¬F.Holds b) :
    OutputApart F (outputArg M pfx q a) := by
  rintro p - hdir b ⟨c, hc, hne, hwithin⟩
  rw [outputArg_of_out hdir] at hc
  obtain rfl := Value.pointer.inj hc
  split_ifs at hne hwithin with hpq
  · rw [hpq] at hwithin
    exact ha hne b hwithin
  · exact absurd rfl hne

/-- The server accepts the words of that call, unless it rejects all. -/
theorem rejects_outputArg (hnodup : (node.parameters.map ParameterNode.name).Nodup)
    (hreg : (serverPartition abi infos node).canUseCallReg = false)
    {F : Frame M (clientStub abi pfx node)} {q : Param} {a : Address} {inWord outWord : Value}
    {peel : List Value} (hw : BlockWords F (outputArg M pfx q a) inWord outWord peel)
    {i o : Address} (hi : toPointer inWord = some i) (ho : toPointer outWord = some o)
    (halways : ¬AlwaysRejected abi infos node) :
    (dispatchCase abi pfx infos node).rejects (inWord :: outWord :: peel) = false := by
  have hspec := clientPartition_spec abi node
  rw [rejects_dispatchCase hi ho, Bool.or_eq_false_iff, Bool.and_eq_false_iff,
    Bool.and_eq_false_iff, decide_eq_false_iff_not, decide_eq_false_iff_not]
  constructor
  · by_cases hclient : (clientPartition abi node).inParams = []
    · left
      have hserver : (serverPartition abi infos node).inParams = [] := by
        by_contra hserver
        exact halways ⟨hclient, hserver⟩
      rw [Bool.eq_false_iff, Ne, checksIn_dispatchCase hreg, hserver]
      simp
    · right
      refine (inPointer_eq hnodup hw.inWord_eq hi).2 hclient fun r hr hptr => ⟨1, ?_, by decide⟩
      have hmem : r ∈ (clientPartition abi node).inParams := hr ▸ List.mem_singleton_self r
      exact outputArg_of_isPtr (hspec.direction_of_mem_in hmem).1 hptr
  · by_cases hchecks : (dispatchCase abi pfx infos node).checksOut = true
    · exact .inr (outPointer_ne_null hreg hw.outWord_eq ho hchecks)
    · exact .inl (Bool.eq_false_iff.2 hchecks)

/-- The handler is called, and nothing happens behind its failure. -/
theorem exists_run_outputArg (hbuilds : Builds M abi pfx infos node)
    (hown : OwnNames abi infos node) (hreg : (clientPartition abi node).canUseCallReg = false)
    (F : Frame M (clientStub abi pfx node)) {q : Param} (hq : q ∈ node.params)
    (hdir : q.node.direction = .OUT) (halways : ¬AlwaysRejected abi infos node) (a : Address)
    (m : Memory) :
    ∃ vs o, (∃ outWord, ClientStub.outWord F (node.params.map (outputArg M pfx q a))
          (outArgumentOf (clientPartition abi node)) = some outWord ∧ toPointer outWord = some o) ∧
      (∀ p ∈ node.params, p.node.direction = .OUT →
        vs[p.index]? = some (.pointer (outAddress M pfx (clientPartition abi node) o p))) ∧
      ∀ handler : Handler, (∀ vs m, M.checkSuccess (handler vs m).1 = false) →
        ∃ call, call.args = vs ∧ ClientStub.run F M.statusSuccess
            ((dispatchCase abi pfx infos node).run M handler)
            (node.params.map (outputArg M pfx q a)) m
          = some ⟨call.status, call.after, [call]⟩ ∧
          (call.status, call.after)
            = handler vs (ClientStub.enter F (node.params.map (outputArg M pfx q a)) m) := by
  have hreg' := canUseCallReg_server abi infos hq hdir
  obtain ⟨inWord, outWord, peel, hwords, hw⟩ :=
    passed_callN hbuilds (typed_outputArg q a) hreg F
  obtain ⟨i, -, hi, -⟩ := hw.isRegister_in.exists_pointer
  obtain ⟨o, -, ho, -⟩ := hw.isRegister_out.exists_pointer
  have hrejects := rejects_outputArg hbuilds.nodup hreg' hw hi ho halways
  obtain ⟨received, hreceived, hspec⟩ := exists_locals hbuilds hreg' hw.isRegister_in hi
    hw.isRegister_out ho hw.isRegister_peel hw.length_peel
    (ClientStub.enter F (node.params.map (outputArg M pfx q a)) m)
  refine ⟨node.params.map received, o, ⟨outWord, hw.outWord_eq, ho⟩, ?_, ?_⟩
  · intro p hp hpdir
    obtain ⟨k, hk⟩ := hbuilds.exists_kind hp
    rw [getElem?_received hp, (hspec p hp k hk).output hpdir, outAddress_server]
  · intro handler hfails
    set m₁ := ClientStub.enter F (node.params.map (outputArg M pfx q a)) m
    set after := handler (node.params.map received) m₁
    refine ⟨⟨node.name, node.params.map received, m₁, after.1, after.2⟩, rfl, ?_, rfl⟩
    rw [run_clientStub _ _ hbuilds.clientStub M.checkSuccess_statusSuccess hwords,
      run_dispatchCase handler (hbuilds.dispatchCase hown) hrejects hreceived, Option.bind_some,
      if_neg (by rw [hfails]; decide)]
    rfl

/-- **A caller's pointer that goes to the handler itself can be `NULL`.** -/
theorem not_passesThrough (hbuilds : Builds M abi pfx infos node)
    (hown : OwnNames abi infos node) (hreg : (clientPartition abi node).canUseCallReg = false)
    {F : Frame M (clientStub abi pfx node)} (huniform : OutputUniform infos F)
    (halways : ¬AlwaysRejected abi infos node) : ¬PassesThrough abi node := by
  rintro ⟨p, hp, hptr⟩
  obtain ⟨hparam, hdir⟩ := mem_outParams_iff.1 (hp ▸ List.mem_singleton_self p)
  have hnull : outputArg M pfx p 0 p = .pointer 0 := by
    rw [outputArg_of_out hdir, if_pos rfl]
  let m : Memory := fun _ => 0
  let handler : Handler := fun _ m => (M.statusInvalidValue, m)
  obtain ⟨vs, o, ⟨outWord, hword, ho⟩, hgiven, hrun⟩ :=
    exists_run_outputArg hbuilds hown hreg F hparam hdir halways 0 m
  obtain ⟨outcome, hrun', hhandled⟩ := huniform M.statusSuccess handler (outputArg M pfx p 0)
    (fun _ _ => False) m (typed_outputArg p 0) (outputApart_outputArg fun h => absurd rfl h)
    (fun _ _ _ h => h.elim) fun _ _ _ h => absurd rfl h
  obtain ⟨call, hargs, hcall, -⟩ := hrun handler fun _ _ => M.checkSuccess_statusInvalidValue
  obtain rfl := Option.some.inj (hcall.symm.trans hrun')
  -- the word for the output is the caller's `NULL`
  have hargument : outArgumentOf (clientPartition abi node) = .pointer p := by
    rw [outArgumentOf, hp]
    exact if_pos hptr
  rw [hargument, ClientStub.outWord, ClientStub.wordOf, valueOf_clientStub hbuilds.nodup hparam,
    hnull] at hword
  obtain rfl : o = 0 := Option.some.inj (ho.symm.trans (toPointer_of_toWord hword))
  obtain ⟨b, hb, hne⟩ := hhandled.receives call (List.mem_singleton_self _) p hparam hdir
  have hlen : (clientPartition abi node).outParams.length = 1 := by rw [hp]; rfl
  rw [hargs, hgiven p hparam hdir, outAddress, if_pos hlen] at hb
  exact hne (Value.pointer.inj (Option.some.inj hb)).symm

/-- **A caller can lend the handler the location of its output.** -/
theorem lendsNoOutput (hbuilds : Builds M abi pfx infos node) (hown : OwnNames abi infos node)
    (hreg : (clientPartition abi node).canUseCallReg = false)
    {F : Frame M (clientStub abi pfx node)}
    (hroom : ∀ q ∈ node.params, q.node.direction = .OUT →
      ∃ a, a ≠ 0 ∧ ∀ b, Within a (outSize M pfx q) b → ¬F.Holds b)
    (huniform : OutputUniform infos F) (halways : ¬AlwaysRejected abi infos node) :
    LendsNoOutput M pfx node := by
  intro p hp hpdir hlends q hq hdir
  by_contra hsize
  obtain ⟨a, hne, hfree⟩ := hroom q hq hdir
  have hself : Within a (outSize M pfx q) a := within_self (Nat.pos_of_ne_zero hsize)
  have hinOutput : InOutput M pfx (outputArg M pfx q a) q a :=
    ⟨a, by rw [outputArg_of_out hdir, if_pos rfl], hne, hself⟩
  -- the handler stores to the byte it is lent, and fails
  let m : Memory := fun _ => 0
  let handler : Handler := fun _ m => (M.statusInvalidValue, fun b => if b = a then 1 else m b)
  obtain ⟨vs, o, -, -, hrun⟩ := exists_run_outputArg hbuilds hown hreg F hq hdir halways a m
  obtain ⟨outcome, hrun', hhandled⟩ := huniform M.statusSuccess handler (outputArg M pfx q a)
    (fun r b => r = p ∧ b = a) m (typed_outputArg q a) (outputApart_outputArg fun _ => hfree)
    (by
      rintro r - b ⟨rfl, -⟩
      exact ⟨hpdir, hlends⟩)
    (by
      intro vs m b hchanged
      by_cases hb : b = a
      · exact .inr ⟨p, hp, rfl, hb⟩
      · exact absurd (if_neg hb) hchanged)
  obtain ⟨call, -, hcall, hafter⟩ := hrun handler fun _ _ => M.checkSuccess_statusInvalidValue
  obtain rfl := Option.some.inj (hcall.symm.trans hrun')
  obtain ⟨hstatus, hmemory⟩ := Prod.mk.inj hafter
  have hkept := hhandled.onFailure (by rw [hstatus]; exact M.checkSuccess_statusInvalidValue) q hq
    hdir a hinOutput
  rw [hmemory] at hkept
  simp [m] at hkept

/-- A call that means something. -/
theorem compiles_of_run {stub : ClientStub} {F : Frame M stub} {c : DispatchCase}
    {handler : Handler} {args : List Value} {m : Memory} {query : Int} {outcome : Outcome}
    (hquery : M.checkSuccess query = true)
    (h : ClientStub.run F query (c.run M handler) args m = some outcome) :
    stub.Compiles M ∧ c.Compiles M := by
  rw [ClientStub.run] at h
  simp only [hquery, if_true] at h
  split_ifs at h with hstub
  obtain ⟨words, -, h⟩ := Option.bind_eq_some_iff.1 h
  obtain ⟨served, hserved, -⟩ := Option.bind_eq_some_iff.1 h
  rw [DispatchCase.run] at hserved
  split_ifs at hserved with hcase
  · exact ⟨hstub, hcase⟩
  · exact ⟨hstub, hcase⟩

theorem builds_of_outputUniform {F : Frame M (clientStub abi pfx node)}
    (huniform : OutputUniform infos F) (q : Param) :
    Builds M abi pfx infos node ∧ OwnNames abi infos node := by
  obtain ⟨outcome, hrun, -⟩ := huniform M.statusSuccess (fun _ m => (M.statusInvalidValue, m))
    (outputArg M pfx q 0) (fun _ _ => False) (fun _ => 0) (typed_outputArg q 0)
    (outputApart_outputArg fun h => absurd rfl h) (fun _ _ _ h => h.elim) fun _ _ _ h =>
      absurd rfl h
  exact compiles_iff_builds.1 (compiles_of_run M.checkSuccess_statusSuccess hrun)

/-- **The output of a function is handled alike for all its parameters exactly when C accepts its
code, its names fit, the caller's own pointer does not get to the handler, and neither does a
pointer to output in another parameter.** -/
theorem outputUniform_iff (hreg : (clientPartition abi node).canUseCallReg = false)
    (hout : (clientPartition abi node).outParams ≠ []) (F : Frame M (clientStub abi pfx node))
    (hroom : ∀ q ∈ node.params, q.node.direction = .OUT →
      ∃ a, a ≠ 0 ∧ ∀ b, Within a (outSize M pfx q) b → ¬F.Holds b) :
    OutputUniform infos F ↔
      Builds M abi pfx infos node ∧ OwnNames abi infos node ∧
        (AlwaysRejected abi infos node ∨
          ¬PassesThrough abi node ∧ LendsNoOutput M pfx node) := by
  obtain ⟨q, -⟩ := List.exists_mem_of_ne_nil _ hout
  constructor
  · intro huniform
    obtain ⟨hbuilds, hown⟩ := builds_of_outputUniform huniform q
    refine ⟨hbuilds, hown, ?_⟩
    by_cases halways : AlwaysRejected abi infos node
    · exact .inl halways
    · exact .inr ⟨not_passesThrough hbuilds hown hreg huniform halways,
        lendsNoOutput hbuilds hown hreg hroom huniform halways⟩
  · rintro ⟨hbuilds, hown, hkept⟩
    exact outputUniform_of hbuilds hown hreg hout F hkept

end OutParameters

/-! ### Examples -/

/-- The variables of a stub can be put at three low addresses. -/
def FitsLow (stub : ClientStub) : Prop :=
  (∀ o ∈ stub.objects lp64 0x1000 0x2000 0x3000, o.1 ≠ 0) ∧
    (stub.inMembers.map fun f =>
      (lp64.member 0x1000 stub.inMembers f.param, lp64.sizeOf f.type)).Pairwise Separate

instance (stub : ClientStub) : Decidable (FitsLow stub) :=
  inferInstanceAs (Decidable (_ ∧ _))

def lowFrame {stub : ClientStub} (h : FitsLow stub) : Frame lp64 stub where
  inBlock := 0x1000
  outBuffer := 0x2000
  argument := 0x3000
  inBlock_ne_null := by decide
  outBuffer_ne_null := by decide
  argument_ne_null := by decide
  objects_ne_null := h.1
  pairwise_inMembers := h.2.imp Separate.noOverlap

/-- Memory apart from those variables. -/
theorem not_holds_lowFrame {stub : ClientStub} (h : FitsLow stub) {a : Address} {n : Nat}
    (hfree : ∀ o ∈ stub.objects lp64 0x1000 0x2000 0x3000, Separate (a, n) o) :
    ∀ b, Within a n b → ¬(lowFrame h).Holds b := by
  rintro b hb ⟨o, ho, hob⟩
  exact (hfree o ho).noOverlap b hb hob

theorem outputApart_lowFrame {abi : ArchAbi} {pfx : Bytes} {node : FunctionNode}
    (h : FitsLow (clientStub abi pfx node)) {arg : Param → Value} (location : Param → Address)
    (hfree : ∀ p ∈ node.params, p.node.direction = .OUT → arg p = .pointer (location p) ∧
      ∀ o ∈ (clientStub abi pfx node).objects lp64 0x1000 0x2000 0x3000,
        Separate (location p, outSize lp64 pfx p) o) :
    OutputApart (lowFrame h) arg := by
  rintro p hp hdir b ⟨a, ha, -, hwithin⟩
  obtain ⟨hlocation, hapart⟩ := hfree p hp hdir
  obtain rfl := Value.pointer.inj (hlocation.symm.trans ha)
  exact not_holds_lowFrame h hapart b hwithin

/-- `f(out T x)` -/
def outFunction (type : TypeNode) : FunctionNode :=
  { name := ascii "f", annotations := [], id := 0, parameters := [⟨.OUT, type, ascii "x", []⟩] }

def bytePointer : TypeNode :=
  .ptr false 0 (.named false 0 (ascii "u8"))

/-- `f(inout u32 x, out u32 y)` -/
def lendingFunction : FunctionNode :=
  { name := ascii "f", annotations := [], id := 0
    parameters := [⟨.INOUT, .named false 0 (ascii "u32"), ascii "x", []⟩,
      ⟨.OUT, .named false 0 (ascii "u32"), ascii "y", []⟩] }

/-- `f(in u8 n, in const ptr<u8> data, out u32 a, out ptr<u8> b)` -/
def twoKeptOutputs : FunctionNode :=
  { name := ascii "f", annotations := [], id := 0
    parameters := [⟨.IN, .named false 0 (ascii "u8"), ascii "n", []⟩,
      ⟨.IN, .ptr true 0 (.named false 0 (ascii "u8")), ascii "data", []⟩,
      ⟨.OUT, .named false 0 (ascii "u32"), ascii "a", []⟩,
      ⟨.OUT, .ptr false 0 (.named false 0 (ascii "u8")), ascii "b", []⟩] }

def outputSamples : List FunctionNode :=
  [outFunction bytePointer, lendingFunction, twoKeptOutputs]

theorem compiles_outputSamples : ∀ f ∈ outputSamples,
    ((clientStub x86_64 (ascii "smp") f).Compiles lp64 ∧
      (dispatchCase x86_64 (ascii "smp") registerBuiltinTypeInfos f).Compiles lp64) ∧
      FitsLow (clientStub x86_64 (ascii "smp") f) := by
  decide +kernel

theorem fitsLow_outFunction :
    FitsLow (clientStub x86_64 (ascii "smp") (outFunction bytePointer)) :=
  (compiles_outputSamples _ (.head _)).2

theorem fitsLow_lendingFunction : FitsLow (clientStub x86_64 (ascii "smp") lendingFunction) :=
  (compiles_outputSamples _ (.tail _ (.head _))).2

theorem fitsLow_twoKeptOutputs : FitsLow (clientStub x86_64 (ascii "smp") twoKeptOutputs) :=
  (compiles_outputSamples _ (.tail _ (.tail _ (.head _)))).2

/-- There is room for output behind the variables. -/
theorem exists_room_of_mem_outputSamples {f : FunctionNode} (hf : f ∈ outputSamples)
    (h : FitsLow (clientStub x86_64 (ascii "smp") f)) :
    ∀ q ∈ f.params, q.node.direction = .OUT →
      ∃ a : Address, a ≠ 0 ∧ ∀ b, Within a (outSize lp64 (ascii "smp") q) b →
        ¬(lowFrame h).Holds b := by
  have hseparate : ∀ f ∈ outputSamples, ∀ q ∈ f.params,
      ∀ o ∈ (clientStub x86_64 (ascii "smp") f).objects lp64 0x1000 0x2000 0x3000,
        Separate (0x5000, outSize lp64 (ascii "smp") q) o := by
    decide +kernel
  intro q hq _
  exact ⟨0x5000, by decide, not_holds_lowFrame h (hseparate f hf q hq)⟩

/-- A pointer as the only output, and a pointer to what may be the output. -/
theorem not_outputUniform_pointer :
    ((clientPartition x86_64 (outFunction bytePointer)).canUseCallReg = false ∧
      (clientPartition x86_64 (outFunction bytePointer)).outParams ≠ [] ∧
      Builds lp64 x86_64 (ascii "smp") registerBuiltinTypeInfos (outFunction bytePointer) ∧
      ¬OutputUniform registerBuiltinTypeInfos (lowFrame fitsLow_outFunction)) ∧
    (clientPartition x86_64 lendingFunction).canUseCallReg = false ∧
      (clientPartition x86_64 lendingFunction).outParams ≠ [] ∧
      Builds lp64 x86_64 (ascii "smp") registerBuiltinTypeInfos lendingFunction ∧
      ¬OutputUniform registerBuiltinTypeInfos (lowFrame fitsLow_lendingFunction) := by
  obtain ⟨hbuilds, hown⟩ :=
    compiles_iff_builds.1 (compiles_outputSamples (outFunction bytePointer) (.head _)).1
  obtain ⟨hbuilds', hown'⟩ :=
    compiles_iff_builds.1 (compiles_outputSamples lendingFunction (.tail _ (.head _))).1
  refine ⟨⟨rfl, by decide, hbuilds, fun huniform => ?_⟩, rfl, by decide, hbuilds',
    fun huniform => ?_⟩
  · exact not_passesThrough hbuilds hown rfl huniform (fun h => h.2 rfl) ⟨_, rfl, rfl⟩
  · have hroom := exists_room_of_mem_outputSamples (.tail _ (.head _)) fitsLow_lendingFunction
    have hlends := lendsNoOutput hbuilds' hown' rfl hroom huniform fun h => by
      have hin : (clientPartition x86_64 lendingFunction).inParams ≠ [] := by decide
      exact hin h.1
    revert hlends
    unfold LendsNoOutput
    decide +kernel

/-- Two outputs, one of them a pointer, are kept in a block. -/
theorem outputUniform_twoKeptOutputs :
    OutputUniform registerBuiltinTypeInfos (lowFrame fitsLow_twoKeptOutputs) := by
  have hmem : twoKeptOutputs ∈ outputSamples := .tail _ (.tail _ (.head _))
  obtain ⟨hbuilds, hown⟩ := compiles_iff_builds.1 (compiles_outputSamples _ hmem).1
  refine (outputUniform_iff rfl (by decide) _ (exists_room_of_mem_outputSamples hmem _)).2
    ⟨hbuilds, hown, .inr ⟨?_, ?_⟩⟩
  · rintro ⟨p, hp, -⟩
    have hlen : (clientPartition x86_64 twoKeptOutputs).outParams.length = 2 := rfl
    rw [hp] at hlen
    cases hlen
  · unfold LendsNoOutput
    decide +kernel

end Sidlc
