import Sidlc.Equiv.Chains
import Sidlc.Generate.Equiv.Delivery
import Sidlc.Generate.Equiv.Server

/-!
# Clients and servers of different versions

A server is generated from the newest artifact of a history, its clients from any artifacts before
it. A number that an older client calls with is still the number of the same function, so its calls
arrive as if client and server were of one version (`session_ends`).
-/

namespace Sidlc

open CValue

/-! ### One call -/

section Call

variable {M : Machine} {abi : ArchAbi} {pfx : Bytes} {infos : TypeValueInfos} {node : FunctionNode}
  {arg : Param → Value}

/-- The call is one of the handler, in the memory `before`. -/
structure HandlerCall.Of (call : HandlerCall) (handler : Handler) (before : Memory) : Prop where
  before_eq : call.before = before
  result : handler call.args call.before = (call.status, call.after)

theorem handlerCall_of_run {c : DispatchCase} {handler : Handler} {words : List Value} {m : Memory}
    {outcome : Outcome} (h : c.run M handler words m = some outcome) :
    ∀ call ∈ outcome.calls, call.Of handler m := by
  unfold DispatchCase.run at h
  split_ifs at h
  · obtain rfl := Option.some.inj h
    exact List.forall_mem_nil _
  · obtain ⟨args, -, hargs⟩ := Option.bind_eq_some_iff.1 h
    obtain rfl := Option.some.inj hargs
    exact List.forall_mem_singleton.2 ⟨rfl, rfl⟩

/-- The stub adds no calls to those of the server. -/
theorem forall_calls_of_run {stub : ClientStub} {F : Frame M stub} {query : Int}
    {transport : List Value → Memory → Option Outcome} {args : List Value} {m : Memory}
    {outcome : Outcome} {P : HandlerCall → Prop}
    (htransport : ∀ words o, transport words (ClientStub.enter F args m) = some o →
      ∀ call ∈ o.calls, P call)
    (h : ClientStub.run F query transport args m = some outcome) :
    ∀ call ∈ outcome.calls, P call := by
  unfold ClientStub.run at h
  split_ifs at h with hcompiles hquery
  · obtain ⟨words, -, h⟩ := Option.bind_eq_some_iff.1 h
    obtain ⟨served, hserved, h⟩ := Option.bind_eq_some_iff.1 h
    split_ifs at h with hstatus
    · obtain ⟨memory, -, h⟩ := Option.bind_eq_some_iff.1 h
      obtain rfl := Option.some.inj h
      exact fun call hcall => htransport words served hserved call hcall
    · obtain rfl := Option.some.inj h
      exact fun call hcall => htransport words served hserved call hcall
  · obtain rfl := Option.some.inj h
    exact List.forall_mem_nil _

/-- The words of any call can be passed. -/
theorem exists_passed (hbuilds : Builds M abi pfx infos node) (htyped : Typed M pfx node arg)
    (F : Frame M (clientStub abi pfx node)) :
    ∃ words, ClientStub.passed F (node.params.map arg) = some words := by
  by_cases hreg : (clientPartition abi node).canUseCallReg = true
  · have hcall : (clientStub abi pfx node).call = .callK node.params := by
      rw [clientStub_of_callReg hreg]
    have hword : ∀ p ∈ node.params, ∃ w,
        (clientStub abi pfx node).wordOf (node.params.map arg) p = some w := fun p hp =>
      (exists_wordOf abi hbuilds.nodup htyped hp (hbuilds.words p hp (.inl (.inl hreg)))).imp
        fun _ h => h.2
    choose! slot hslot using hword
    exact ⟨_, by rw [ClientStub.passed, hcall]; exact mapM_eq_some_map hslot⟩
  · obtain ⟨inWord, outWord, peel, hwords, -⟩ :=
      passed_callN hbuilds htyped (Bool.eq_false_iff.2 hreg) F
    exact ⟨_, hwords⟩

end Call

/-! ### Versions -/

section Versions

variable {abi : ArchAbi} {old new : InterfaceNode}

/-- `FUNCID_name` is the number of the function. -/
theorem ClientBinding.funcid_eq (client : ClientBinding abi old)
    (hnames : ((functionsOf old.abiversions).map FunctionNode.name).Nodup) {f : FunctionNode}
    (hf : f ∈ functionsOf old.abiversions) :
    client.funcid (ascii "FUNCID_" ++ f.name) = some f.id := by
  rw [funcid, client.user_eq]
  show Option.map _ (List.find? _ (List.map _ _)) = _
  rw [List.find?_map]
  have hfound : (functionsOf old.abiversions).find? ((fun entry : FuncidMacro =>
      decide (entry.name = ascii "FUNCID_" ++ f.name)) ∘ fun f => ⟨ascii "FUNCID_" ++ f.name, f.id⟩)
      = some f := by
    cases hfind : (functionsOf old.abiversions).find? ((fun entry : FuncidMacro =>
        decide (entry.name = ascii "FUNCID_" ++ f.name)) ∘
          fun f => ⟨ascii "FUNCID_" ++ f.name, f.id⟩) with
    | none => exact absurd (decide_eq_true rfl) (List.find?_eq_none.1 hfind f hf)
    | some g =>
      have hname : ascii "FUNCID_" ++ g.name = ascii "FUNCID_" ++ f.name :=
        of_decide_eq_true (List.find?_some hfind :)
      rw [List.inj_on_of_nodup_map hnames (List.mem_of_find?_eq_some hfind) hf
        (List.append_cancel_left hname)]
  rw [hfound]
  rfl

/-- **A call of an older client** reaches the case that the newer server has for its function. -/
theorem run_of_grows (hplaced : Placed (functionsOf new.abiversions)) (hgrows : old.Grows new)
    (client : ClientBinding abi old) (s : ServerBinding abi new) {M : ServerMachine}
    {vtable : VTable} (hlength : vtable.length = s.vtableFields.length) {f : FunctionNode}
    (hf : f ∈ functionsOf old.abiversions)
    (F : Frame M.toMachine (clientStub abi old.prefixStr f)) (query : Int) (base : UInt32)
    (args : List Value) (m : Memory) :
    client.run F query base (fun funcid words m => s.run M (some vtable) funcid (some words) m)
        args m =
      ClientStub.run F query (fun words m =>
        match vtable[f.id.toNat]?.join with
        | some handler => (dispatchCase abi new.prefixStr (typeValueInfos new) f).run
            M.toMachine handler words m
        | none => some ⟨M.statusNotImplemented, m, []⟩) args m := by
  have hnames := (hplaced.mono hgrows.functionsOf).nodup
  have hstub : (clientStub abi old.prefixStr f).funcid = ascii "FUNCID_" ++ f.name := by
    unfold clientStub
    simp only
    split_ifs <;> rfl
  have hplace := hplaced.getElem?_id (hgrows.functionsOf.subset hf)
  rw [ClientBinding.run, hstub, client.funcid_eq hnames hf]
  show ClientStub.run F query _ args m = _
  refine congrArg (fun transport => ClientStub.run F query transport args m) ?_
  funext words m
  have hfuncid : base + f.id - base = f.id := by rw [UInt32.add_comm, UInt32.add_sub_cancel]
  rw [hfuncid, s.run_eq hplaced M hlength, hplace]
  cases vtable[f.id.toNat]?.join <;> rfl

end Versions

/-! ### Sessions -/

/-- A call that a client makes: the client is generated from some artifact that the newest one
extends. -/
structure VersionedCall (M : ServerMachine) (abi : ArchAbi) (artifact : Bytes) where
  version : Bytes
  isEarlier : Extends version artifact
  interface : InterfaceNode
  read : sifRead version = .ok interface
  client : ClientBinding abi interface
  function : FunctionNode
  declared : function ∈ functionsOf interface.abiversions
  frame : Frame M.toMachine (clientStub abi interface.prefixStr function)
  arg : Param → Value
  /-- What `StHandle_Query` returns and reports. -/
  query : Int
  base : UInt32
  /-- What happens to the memory between the call before and this one. -/
  meantime : Memory → Memory

namespace VersionedCall

variable {M : ServerMachine} {abi : ArchAbi} {artifact : Bytes}

def run (server : UInt32 → List Value → Memory → Option Outcome)
    (c : VersionedCall M abi artifact) (m : Memory) : Option Outcome :=
  c.client.run c.frame c.query c.base server (c.function.params.map c.arg) (c.meantime m)

/-- C accepts the function's code, in which no name takes the place of another. The sizes of what is
passed by value are those that the server knows, and the arguments are of their types. -/
structure WellTyped (c : VersionedCall M abi artifact) (server : InterfaceNode) : Prop where
  names : ∀ p ∈ c.function.parameters, p.name ∉ dispatcherNames
  known : SizesKnown abi (typeValueInfos server) c.function
  builds : Builds M.toMachine abi c.interface.prefixStr (typeValueInfos server) c.function
  typed : Typed M.toMachine c.interface.prefixStr c.function c.arg
  apart : OutputApart c.frame c.arg

/-- How a call ends that is made in the memory `before`. -/
inductive Ends (c : VersionedCall M abi artifact) (vtable : VTable) (before : Memory)
    (outcome : Outcome) : Prop
  /-- The query fails, and the server is not called. -/
  | refused (hquery : M.checkSuccess c.query = false) (hstatus : outcome.status = c.query)
      (hcalls : outcome.calls = [])
      (hmemory : ∀ b, ¬c.frame.Holds b → outcome.memory b = before b)
  /-- The server has no handler for the function. -/
  | notImplemented (hquery : M.checkSuccess c.query = true)
      (hslot : vtable[c.function.id.toNat]?.join = none)
      (hstatus : outcome.status = M.statusNotImplemented) (hcalls : outcome.calls = [])
      (hmemory : ∀ b, ¬c.frame.Holds b → outcome.memory b = before b)
  /-- The handler in the slot of the function is called once, with the arguments, in the memory of
  the caller. -/
  | delivered (hquery : M.checkSuccess c.query = true) {handler : Handler}
      (hslot : vtable[c.function.id.toNat]?.join = some handler) {call : HandlerCall}
      {handed : Param → Address}
      (hdelivers : Delivers M.toMachine c.interface.prefixStr c.function c.arg outcome call handed)
      (hhandler : handler call.args call.before = (call.status, call.after))
      (hmemory : ∀ b, ¬c.frame.Holds b → call.before b = before b)

/-- How the calls of a session end, one after the other. -/
inductive AllEnd (vtable : VTable) :
    List (VersionedCall M abi artifact) → Memory → List Outcome → Prop
  | nil (m : Memory) : AllEnd vtable [] m []
  | cons {c : VersionedCall M abi artifact} {calls : List (VersionedCall M abi artifact)}
      {m : Memory} {outcome : Outcome} {outcomes : List Outcome}
      (hfirst : c.Ends vtable (c.meantime m) outcome)
      (hrest : AllEnd vtable calls outcome.memory outcomes) :
      AllEnd vtable (c :: calls) m (outcome :: outcomes)

end VersionedCall

section Session

variable {M : ServerMachine} {abi : ArchAbi} {artifact : Bytes} {interface : InterfaceNode}

/-- One call, from any version. -/
theorem VersionedCall.exists_ends (hread : sifRead artifact = .ok interface)
    (hplaced : Placed (functionsOf interface.abiversions)) (s : ServerBinding abi interface)
    {vtable : VTable} (hlength : vtable.length = s.vtableFields.length)
    (c : VersionedCall M abi artifact) (hc : c.WellTyped interface) (m : Memory) :
    ∃ outcome, c.run (fun funcid words m => s.run M (some vtable) funcid (some words) m) m
      = some outcome ∧ c.Ends vtable (c.meantime m) outcome := by
  have hgrows : c.interface.Grows interface := by
    obtain ⟨result, hresult, hgrows⟩ := c.isEarlier.appends c.read
    rwa [Except.ok.inj (hread.symm.trans hresult)]
  -- up to the call of the server only the variables of the stub are written
  have henter : ∀ b, ¬c.frame.Holds b →
      ClientStub.enter c.frame (c.function.params.map c.arg) (c.meantime m) b = c.meantime m b :=
    fun b hb => enter_of_not_holds hc.builds.nodup hc.typed hb _
  rw [run, run_of_grows hplaced hgrows c.client s hlength c.declared]
  by_cases hquery : M.checkSuccess c.query = true
  · cases hslot : vtable[c.function.id.toNat]?.join with
    | none =>
      obtain ⟨words, hwords⟩ := exists_passed hc.builds hc.typed c.frame
      rw [run_clientStub _ _ hc.builds.clientStub hquery hwords]
      simp only [Option.bind_some, M.checkSuccess_statusNotImplemented, Bool.false_eq_true,
        if_false]
      exact ⟨_, rfl, .notImplemented hquery hslot rfl rfl henter⟩
    | some handler =>
      simp only
      rw [hgrows.prefixStr]
      obtain ⟨outcome, call, handed, hrun, hdelivers⟩ := delivers_clientStub
        (fun _ hp => typeSize_of_sifRead c.read c.declared hp) hc.known hc.builds
        (ownNames_of_notMem hc.names) c.frame hquery handler hc.typed hc.apart (c.meantime m)
      have hcall : call.Of handler
          (ClientStub.enter c.frame (c.function.params.map c.arg) (c.meantime m)) := by
        refine forall_calls_of_run (fun _ _ h => handlerCall_of_run h) hrun call ?_
        rw [hdelivers.calls]
        exact List.mem_singleton_self _
      refine ⟨outcome, hrun, .delivered hquery hslot hdelivers hcall.result fun b hb => ?_⟩
      rw [hcall.before_eq, henter b hb]
  · have hquery := Bool.eq_false_iff.2 hquery
    exact ⟨_, run_of_query _ _ _ hc.builds.clientStub hquery, .refused hquery rfl rfl henter⟩

/-- **Clients and servers of all versions understand each other.** A server that was generated from
a compiled artifact answers any calls, in any order, of clients that were generated from artifacts
before it: each call is refused by the query, or has no handler, or is delivered once, with its
arguments, to the handler of its function. -/
theorem session_ends (sources : List Bytes) (artifact : Bytes) (interface : InterfaceNode)
    (h : Compiled sources artifact) (hread : sifRead artifact = .ok interface)
    (hlt : (functionsOf interface.abiversions).length < 2 ^ 32)
    (hnames : ((functionsOf interface.abiversions).map FunctionNode.name).Nodup) (abi : ArchAbi)
    (s : ServerBinding abi interface) (M : ServerMachine) (vtable : VTable)
    (hlength : vtable.length = s.vtableFields.length) (calls : List (VersionedCall M abi artifact))
    (hcalls : ∀ c ∈ calls, c.WellTyped interface) (m : Memory) :
    ∃ outcomes, runSession (VersionedCall.run fun funcid words m =>
        s.run M (some vtable) funcid (some words) m) calls m = some outcomes ∧
      VersionedCall.AllEnd vtable calls m outcomes := by
  obtain ⟨-, hplaced⟩ := h.placed hread hlt hnames
  induction calls generalizing m with
  | nil => exact ⟨[], rfl, .nil m⟩
  | cons c calls ih =>
    rw [List.forall_mem_cons] at hcalls
    obtain ⟨outcome, hrun, hends⟩ := c.exists_ends hread hplaced s hlength hcalls.1 m
    obtain ⟨outcomes, hrest, hall⟩ := ih hcalls.2 outcome.memory
    refine ⟨outcome :: outcomes, ?_, .cons hends hall⟩
    rw [runSession, hrun]
    show (runSession _ calls outcome.memory).bind _ = _
    rw [hrest]
    rfl

end Session

/-! ### A session of two calls -/

theorem printable_revisionOf_twoOutputs : (revisionOf twoOutputs).Printable := by
  decide +kernel

/-- `lp64`, with `-2` for functions that a server does not have. -/
def serverLp64 : ServerMachine where
  toMachine := lp64
  statusNotImplemented := -2
  checkSuccess_statusNotImplemented := rfl

theorem exists_frame_twoOutputs {pfx : Bytes} (h : pfx = ascii "smp") :
    ∃ F : Frame serverLp64.toMachine (clientStub x86_64 pfx twoOutputs),
      OutputApart F (twoOutputsArg 0x5000 0x5002) := by
  subst h
  exact ⟨lowFrame fitsLow_twoOutputs, outputApart_twoOutputs⟩

/-- A query that fails, and a call that is delivered. -/
theorem session_ends_twoOutputs :
    ∃ (artifact : Bytes) (calls : List (VersionedCall serverLp64 x86_64 artifact))
      (outcomes : List Outcome), calls.length = 2 ∧
      VersionedCall.AllEnd [some storeBoth] calls (fun _ => 0) outcomes := by
  obtain ⟨source, artifact, interface, previousHash, abiHash, h, hread, hpre, hrevisions⟩ :=
    @exists_compiled_revision (revisionOf twoOutputs) rfl printable_revisionOf_twoOutputs
      (by decide)
  have hfunctions : functionsOf interface.abiversions = [twoOutputs] := by
    rw [hrevisions]
    rfl
  have hinfos : typeValueInfos interface
      = typeValueInfos (sampleRead (revisionOf twoOutputs)) := by
    rw [typeValueInfos_revisionOf, typeValueInfos, hrevisions]
    rfl
  have hlt : (functionsOf interface.abiversions).length < 2 ^ 32 := by
    rw [hfunctions, List.length_singleton]
    decide
  have hnames : ((functionsOf interface.abiversions).map FunctionNode.name).Nodup := by
    rw [hfunctions]
    exact List.pairwise_singleton ..
  obtain ⟨hnormalized, -⟩ := h.placed hread hlt hnames
  obtain ⟨F, hapart⟩ := exists_frame_twoOutputs hpre
  let s : ServerBinding x86_64 interface :=
    .ofNormalized hnormalized (by decide) (by rw [hfunctions]; decide)
  let call (query : Int) : VersionedCall serverLp64 x86_64 artifact :=
    { version := artifact
      isEarlier := .refl
      interface
      read := hread
      client := .ofNormalized hnormalized
      function := twoOutputs
      declared := by
        rw [hfunctions]
        exact List.mem_singleton_self _
      frame := F
      arg := twoOutputsArg 0x5000 0x5002
      query
      base := 64
      meantime := id }
  have hwell (query : Int) : (call query).WellTyped interface :=
    { names := by
        show ∀ p ∈ twoOutputs.parameters, p.name ∉ dispatcherNames
        decide
      known := by
        rw [hinfos]
        exact sizesKnown_samples _ (.head _)
      builds := by
        show Builds lp64 x86_64 interface.prefixStr (typeValueInfos interface) twoOutputs
        rw [hpre, hinfos]
        exact builds_twoOutputs
      typed := by
        show Typed lp64 interface.prefixStr twoOutputs _
        rw [hpre]
        exact typed_twoOutputs _ _
      apart := hapart }
  obtain ⟨outcomes, -, hall⟩ := session_ends [source] artifact interface h hread hlt hnames x86_64 s
    serverLp64 [some storeBoth] (by rw [s.length_vtableFields, hfunctions]; rfl) [call (-1), call 0]
    (List.forall_mem_cons.2 ⟨hwell _, List.forall_mem_singleton.2 (hwell _)⟩) fun _ => 0
  exact ⟨artifact, _, outcomes, rfl, hall⟩

end Sidlc
