import Sidlc.Generate.Equiv.FunctionNumbers
import Sidlc.Generate.Equiv.Parameters

/-!
# Names in the generated code

The names of the parameters come from the source. The client puts `_` in front of them, the headers
and the dispatcher do not, and there a parameter can be called like something that the generated
code itself declares (`hygienic_iff`).
-/

namespace Sidlc

/-! ### Uses of the dispatcher's own variables -/

/-- The variable of the dispatcher that an initializer is written with. -/
def ArgExpression.identifier : ArgExpression → Bytes
  | .slot _ | .pointerSlot _ | .load _ => ascii "args"
  | .inField _ => ascii "in"
  | .outField _ => ascii "out"

/-- The local variables, each with the names that the case has declared where it is initialized. A
variable is in scope in its own initializer. -/
def scopes (declared : List Bytes) : List DispatchLocal → List (DispatchLocal × List Bytes)
  | [] => []
  | l :: ls =>
    let declared := l.param.node.name :: declared
    (l, declared) :: scopes declared ls

/-- The initializer is written with a variable that the case has declared by then, which C takes in
place of the dispatcher's. -/
def DispatchLocal.IsCaptured (l : DispatchLocal) (declared : List Bytes) : Prop :=
  l.init.identifier ∈ declared

instance (l : DispatchLocal) (declared : List Bytes) : Decidable (l.IsCaptured declared) :=
  inferInstanceAs (Decidable (_ ∈ declared))

/-- The uses in the initializers. -/
def localUses (declared : List Bytes) (locals : List DispatchLocal) : List (Bytes × List Bytes) :=
  (scopes declared locals).map fun s => (s.1.init.identifier, s.2)

/-- The uses of the dispatcher's variables in a case: `args` before all locals, in `(void)args`, for
the pointers to the blocks and in their tests, then in the initializers, and in the call. -/
def DispatchCase.uses (c : DispatchCase) : List (Bytes × List Bytes) :=
  let names := c.locals.map fun l => l.param.node.name
  List.replicate ([c.locals.isEmpty, c.inBlock.isSome, c.outBlock.isSome, c.checksIn,
    c.checksOut].countP id) (ascii "args", []) ++
  localUses [] c.locals ++
  [(ascii "typed_vtable", names), (ascii "context", names), (ascii "handle", names)]

/-- The use of a variable refers to the dispatcher's own when the case has declared none of its
name. -/
def DispatchCase.UsesOwn (c : DispatchCase) : Prop :=
  ∀ use ∈ c.uses, use.1 ∉ use.2

/-- The names in the parameter list of a stub. -/
def ClientStub.parameterNames (stub : ClientStub) : List Bytes :=
  ascii "handle" :: stub.parameters.map fun f => f.param.stubName

/-- The local variables of a stub. -/
def stubLocals : List Bytes :=
  [ascii "status", ascii "funcid_base", ascii "in", ascii "out"]

/-- All names of a function are its own in the code generated for it. -/
structure Hygienic (abi : ArchAbi) (pfx : Bytes) (infos : TypeValueInfos) (node : FunctionNode) :
    Prop where
  clientPrototype : ((prototype pfx node).parameters.map ParameterDeclaration.name).Nodup
  clientDefinition : (clientStub abi pfx node).parameterNames.Nodup
  vtableField : ((vtableField pfx node).parameters.map ParameterDeclaration.name).Nodup
  stubLocals : ∀ name ∈ (clientStub abi pfx node).parameterNames, name ∉ stubLocals
  dispatchCase : (dispatchCase abi pfx infos node).UsesOwn

/-! ### Uses by position -/

theorem mem_scopes {declared names : List Bytes} {locals : List DispatchLocal} {l : DispatchLocal} :
    (l, names) ∈ scopes declared locals ↔ ∃ j, locals[j]? = some l ∧
      names = ((locals.take (j + 1)).map fun l => l.param.node.name).reverse ++ declared := by
  induction locals generalizing declared with
  | nil => simp [scopes]
  | cons m ls ih =>
    rw [scopes, List.mem_cons, ih, Prod.mk.injEq]
    constructor
    · rintro (⟨rfl, rfl⟩ | ⟨j, hj, hdeclared⟩)
      · exact ⟨0, rfl, rfl⟩
      · refine ⟨j + 1, hj, ?_⟩
        rw [hdeclared, List.take_succ_cons, List.map_cons, List.reverse_cons, List.append_assoc,
          List.singleton_append]
    · rintro ⟨j, hj, hdeclared⟩
      cases j with
      | zero => exact .inl ⟨(Option.some.inj hj).symm, hdeclared⟩
      | succ j =>
        refine .inr ⟨j, hj, ?_⟩
        rw [hdeclared, List.take_succ_cons, List.map_cons, List.reverse_cons, List.append_assoc,
          List.singleton_append]

/-- A local is captured by one that is declared up to there. -/
theorem isCaptured_iff {locals : List DispatchLocal} {j : Nat} {m : DispatchLocal} :
    m.IsCaptured (((locals.take (j + 1)).map fun l => l.param.node.name).reverse ++ []) ↔
      ∃ i l, i ≤ j ∧ locals[i]? = some l ∧ l.param.node.name = m.init.identifier := by
  rw [DispatchLocal.IsCaptured, List.append_nil, List.mem_reverse, List.mem_map]
  constructor
  · rintro ⟨l, hl, hname⟩
    obtain ⟨i, hi⟩ := List.mem_iff_getElem?.1 hl
    rw [List.getElem?_take] at hi
    split_ifs at hi with hij
    exact ⟨i, l, Nat.lt_succ_iff.1 hij, hi, hname⟩
  · rintro ⟨i, l, hij, hi, hname⟩
    refine ⟨l, List.mem_iff_getElem?.2 ⟨i, ?_⟩, hname⟩
    rw [List.getElem?_take_of_lt (by omega), hi]

/-! ### The condition -/

section Condition

variable {abi : ArchAbi} {pfx : Bytes} {infos : TypeValueInfos} {node : FunctionNode}

/-- The parameter is a field of a block with several fields. -/
def Partition.InBlock (s : Partition) (p : Param) : Prop :=
  s.canUseCallReg = false ∧
    (p ∈ s.inParams ∧ 1 < s.inParams.length ∨ p ∈ s.outParams ∧ 1 < s.outParams.length)

instance (s : Partition) (p : Param) : Decidable (s.InBlock p) :=
  inferInstanceAs (Decidable (_ ∧ (_ ∧ _ ∨ _ ∧ _)))

/-- The variable of the dispatcher that a parameter is read from. -/
def Partition.variableOf (s : Partition) (p : Param) : Bytes :=
  if s.InBlock p then
    if p.node.direction = .OUT then ascii "out" else ascii "in"
  else ascii "args"

/-- No parameter is called like the variable of the dispatcher that it, or one behind it, is read
from. -/
def ReadsOwn (abi : ArchAbi) (infos : TypeValueInfos) (node : FunctionNode) : Prop :=
  ∀ p ∈ node.params, ∀ q ∈ node.params, p.index ≤ q.index →
    p.node.name ≠ (serverPartition abi infos node).variableOf q

instance (abi : ArchAbi) (infos : TypeValueInfos) (node : FunctionNode) :
    Decidable (ReadsOwn abi infos node) :=
  inferInstanceAs (Decidable (∀ p ∈ node.params, ∀ q ∈ node.params, _ → _))

/-- No parameter is called like a variable of the call, and from one called `args` on, all
parameters travel in blocks. -/
def NamesFit (abi : ArchAbi) (infos : TypeValueInfos) (node : FunctionNode) : Prop :=
  (∀ p ∈ node.parameters,
    p.name ≠ ascii "context" ∧ p.name ≠ ascii "handle" ∧ p.name ≠ ascii "typed_vtable") ∧
  ∀ p ∈ node.params, p.node.name = ascii "args" → ∀ q ∈ node.params, p.index ≤ q.index →
    (serverPartition abi infos node).InBlock q

theorem Partition.variableOf_eq_args_iff {s : Partition} {p : Param} :
    s.variableOf p = ascii "args" ↔ ¬s.InBlock p := by
  have hin : ascii "in" ≠ ascii "args" := by decide
  have hout : ascii "out" ≠ ascii "args" := by decide
  unfold variableOf
  split_ifs with hblock hdir
  · exact iff_of_false hout (not_not.2 hblock)
  · exact iff_of_false hin (not_not.2 hblock)
  · exact iff_of_true rfl hblock

/-- The local variable of a parameter. -/
def localOf (pfx : Bytes) (s : Partition) (p : Param) : DispatchLocal :=
  ⟨getParameterCType pfx p.node, p, argExpression pfx s p⟩

/-- **An initializer is written with the variable of its parameter.** -/
theorem identifier_argExpression (pfx : Bytes) {q : Param} (hq : q ∈ node.params) :
    (argExpression pfx (serverPartition abi infos node) q).identifier
      = (serverPartition abi infos node).variableOf q := by
  have hspec : Partition.Spec _ _ _ _ (serverPartition abi infos node) := partition_spec ..
  set s := serverPartition abi infos node
  by_cases hreg : s.canUseCallReg = true
  · have hno : ¬s.InBlock q := fun h => Bool.false_ne_true (h.1.symm.trans hreg)
    rw [Partition.variableOf, if_neg hno, argExpression, if_pos hreg]
    split_ifs <;> rfl
  · have hreg := Bool.eq_false_iff.2 hreg
    unfold argExpression Partition.variableOf Partition.InBlock
    simp only [hreg, Bool.false_eq_true, if_false, true_and]
    -- which group the parameter is in decides what it is read from
    rcases (hspec.mem_iff q).1 hq with hmem | hmem | hmem
    · obtain ⟨hdir, hpeel⟩ := hspec.direction_of_mem_in hmem
      have hnout : q ∉ s.outParams := fun h => hdir (hspec.direction_of_mem_out h)
      simp only [hdir, if_false, hpeel, hmem, hnout, true_and, false_and, or_false]
      rcases hparams : s.inParams with _ | ⟨r, _ | ⟨r', rest⟩⟩
      · rw [hparams] at hmem
        cases hmem
      · by_cases hptr : r.node.type.isPtr = true
        · simp [hptr, ArgExpression.identifier]
        · simp [hptr, ArgExpression.identifier]
      · simp [ArgExpression.identifier]
    · have hdir := hspec.direction_of_mem_out hmem
      have hnin : q ∉ s.inParams := fun h => (hspec.direction_of_mem_in h).1 hdir
      have hpos := List.length_pos_of_mem hmem
      simp only [hdir, if_true, hmem, hnin, true_and, false_and, false_or]
      by_cases hlen : s.outParams.length = 1
      · simp [hlen, ArgExpression.identifier]
      · have hlt : 1 < s.outParams.length := by omega
        simp only [hlen, if_false, hlt, if_true, ArgExpression.identifier]
    · have hscalar := hspec.isInScalar_of_mem_peeled hmem
      have hdir : q.node.direction ≠ .OUT := by
        intro h
        simp [Partition.IsInScalar, h] at hscalar
      have hnin : q ∉ s.inParams := fun h => (hspec.direction_of_mem_in h).2 hmem
      have hnout : q ∉ s.outParams := fun h => hdir (hspec.direction_of_mem_out h)
      simp [hdir, hmem, hnin, hnout, ArgExpression.identifier]

/-- `in` and `out` are keywords, so an identifier in an initializer can only be `args`. -/
theorem ArgExpression.identifier_eq_args {e : ArgExpression} (h : IsIdentifier e.identifier) :
    e.identifier = ascii "args" := by
  have hreserved : ¬IsIdentifier (ascii "in") ∧ ¬IsIdentifier (ascii "out") := by decide +kernel
  cases e with
  | slot => rfl
  | pointerSlot => rfl
  | load => rfl
  | inField => exact absurd h hreserved.1
  | outField => exact absurd h hreserved.2

/-- The names that the call of the handler uses. -/
theorem notMem_names_iff (parameters : List ParameterNode) :
    (ascii "typed_vtable" ∉ parameters.map ParameterNode.name ∧
      ascii "context" ∉ parameters.map ParameterNode.name ∧
      ascii "handle" ∉ parameters.map ParameterNode.name) ↔
      ∀ p ∈ parameters,
        p.name ≠ ascii "context" ∧ p.name ≠ ascii "handle" ∧ p.name ≠ ascii "typed_vtable" := by
  simp only [List.mem_map, not_exists, not_and]
  constructor
  · rintro ⟨hvtable, hcontext, hhandle⟩ p hp
    exact ⟨hcontext p hp, hhandle p hp, hvtable p hp⟩
  · exact fun h => ⟨fun p hp => (h p hp).2.2, fun p hp => (h p hp).1, fun p hp => (h p hp).2.1⟩

/-- The local variable of a parameter stands at its index. -/
theorem getElem?_locals_dispatchCase {p : Param} (hp : p ∈ node.params) :
    (dispatchCase abi pfx infos node).locals[p.index]?
      = some (localOf pfx (serverPartition abi infos node) p) := by
  rw [locals_dispatchCase, List.getElem?_map, FunctionNode.getElem?_index hp, Option.map_some]
  rfl

/-- A local variable belongs to the parameter at its place. -/
theorem exists_of_getElem?_locals {j : Nat} {l : DispatchLocal}
    (h : (dispatchCase abi pfx infos node).locals[j]? = some l) :
    ∃ p ∈ node.params, p.index = j ∧ l = localOf pfx (serverPartition abi infos node) p := by
  rw [locals_dispatchCase, List.getElem?_map, Option.map_eq_some_iff] at h
  obtain ⟨p, hp, rfl⟩ := h
  refine ⟨p, List.mem_of_getElem? hp, ?_, rfl⟩
  rw [node.getElem?_params] at hp
  obtain ⟨n, -, rfl⟩ := Option.map_eq_some_iff.1 hp
  rfl

/-- A parameter takes the place of the variable that `q` is read from. -/
def Hides (abi : ArchAbi) (infos : TypeValueInfos) (node : FunctionNode) (q : Param) : Prop :=
  ∃ p ∈ node.params, p.index ≤ q.index ∧
    p.node.name = (serverPartition abi infos node).variableOf q

theorem readsOwn_iff_not_hides :
    ReadsOwn abi infos node ↔ ∀ q ∈ node.params, ¬Hides abi infos node q := by
  constructor
  · rintro h q hq ⟨p, hp, hindex, hname⟩
    exact h p hp q hq hindex hname
  · exact fun h p hp q hq hindex hname => h q hq ⟨p, hp, hindex, hname⟩

/-- The names that a case has declared where the variable of a parameter is initialized. -/
theorem mem_scopes_dispatchCase {l : DispatchLocal} {names : List Bytes}
    (h : (l, names) ∈ scopes [] (dispatchCase abi pfx infos node).locals) :
    ∃ q ∈ node.params, l = localOf pfx (serverPartition abi infos node) q ∧
      (l.IsCaptured names ↔ Hides abi infos node q) := by
  obtain ⟨j, hj, rfl⟩ := mem_scopes.1 h
  obtain ⟨q, hq, rfl, rfl⟩ := exists_of_getElem?_locals hj
  have hread : (localOf pfx (serverPartition abi infos node) q).init.identifier
      = (serverPartition abi infos node).variableOf q := identifier_argExpression pfx hq
  refine ⟨q, hq, rfl, ?_⟩
  rw [isCaptured_iff, hread]
  constructor
  · rintro ⟨i, m, hij, hi, hname⟩
    obtain ⟨r, hr, rfl, rfl⟩ := exists_of_getElem?_locals hi
    exact ⟨r, hr, hij, hname⟩
  · rintro ⟨r, hr, hindex, hname⟩
    exact ⟨r.index, _, hindex, getElem?_locals_dispatchCase hr, hname⟩

theorem exists_mem_scopes (abi : ArchAbi) (pfx : Bytes) (infos : TypeValueInfos) {q : Param}
    (hq : q ∈ node.params) :
    ∃ names, (localOf pfx (serverPartition abi infos node) q, names)
      ∈ scopes [] (dispatchCase abi pfx infos node).locals :=
  ⟨_, mem_scopes.2 ⟨q.index, getElem?_locals_dispatchCase hq, rfl⟩⟩

/-- The initializers use the dispatcher's variables when no parameter takes the place of what is
read behind it. -/
theorem forall_localUses_dispatchCase :
    (∀ use ∈ localUses [] (dispatchCase abi pfx infos node).locals, use.1 ∉ use.2) ↔
      ReadsOwn abi infos node := by
  rw [localUses, List.forall_mem_map, readsOwn_iff_not_hides]
  constructor
  · intro h q hq hhides
    obtain ⟨names, hscope⟩ := exists_mem_scopes abi pfx infos hq
    obtain ⟨r, hr, hlocal, hcaptured⟩ := mem_scopes_dispatchCase hscope
    obtain rfl : q = r := congrArg DispatchLocal.param hlocal
    exact h _ hscope (hcaptured.2 hhides)
  · rintro h ⟨l, names⟩ hscope hmem
    obtain ⟨q, hq, -, hcaptured⟩ := mem_scopes_dispatchCase hscope
    exact h q hq (hcaptured.1 hmem)

/-- Of identifiers, only `args` can take the place of what is read. -/
theorem readsOwn_iff (hnames : ∀ p ∈ node.parameters, IsIdentifier p.name) :
    ReadsOwn abi infos node ↔
      ∀ p ∈ node.params, p.node.name = ascii "args" → ∀ q ∈ node.params, p.index ≤ q.index →
        (serverPartition abi infos node).InBlock q := by
  constructor
  · intro h p hp hargs q hq hindex
    by_contra hno
    exact h p hp q hq hindex (hargs.trans (Partition.variableOf_eq_args_iff.2 hno).symm)
  · intro h p hp q hq hindex heq
    -- what is read is called like the parameter, which is an identifier
    have hidentifier := hnames _ (node.node_mem_parameters hp)
    rw [heq, ← identifier_argExpression [] hq] at hidentifier
    have hargs := ArgExpression.identifier_eq_args hidentifier
    rw [identifier_argExpression [] hq] at hargs
    exact Partition.variableOf_eq_args_iff.1 hargs (h p hp (heq.trans hargs) q hq hindex)

theorem map_name_locals (abi : ArchAbi) (pfx : Bytes) (infos : TypeValueInfos)
    (node : FunctionNode) :
    ((dispatchCase abi pfx infos node).locals.map fun l => l.param.node.name)
      = node.parameters.map ParameterNode.name := by
  rw [locals_dispatchCase, List.map_map, ← node.map_node_params, List.map_map]
  rfl

/-- No parameter is called like a variable of the call, and none hides what is read. -/
def OwnNames (abi : ArchAbi) (infos : TypeValueInfos) (node : FunctionNode) : Prop :=
  (∀ p ∈ node.parameters,
    p.name ≠ ascii "context" ∧ p.name ≠ ascii "handle" ∧ p.name ≠ ascii "typed_vtable") ∧
  ReadsOwn abi infos node

theorem usesOwn_iff_ownNames :
    (dispatchCase abi pfx infos node).UsesOwn ↔ OwnNames abi infos node := by
  have hbefore : ∀ n : Nat, ∀ use ∈ List.replicate n (ascii "args", ([] : List Bytes)),
      use.1 ∉ use.2 := by
    intro n use huse
    rw [List.eq_of_mem_replicate huse]
    exact List.not_mem_nil
  rw [DispatchCase.UsesOwn, DispatchCase.uses]
  simp only [List.forall_mem_append, map_name_locals, List.forall_mem_cons, List.not_mem_nil,
    false_implies, implies_true, and_true]
  rw [OwnNames, ← notMem_names_iff, and_comm, and_iff_right (hbefore _),
    forall_localUses_dispatchCase]

theorem usesOwn_iff (hnames : ∀ p ∈ node.parameters, IsIdentifier p.name) :
    (dispatchCase abi pfx infos node).UsesOwn ↔ NamesFit abi infos node := by
  rw [usesOwn_iff_ownNames, OwnNames, readsOwn_iff hnames, NamesFit]

/-- The variables of the dispatcher that a case uses. -/
def dispatcherNames : List Bytes :=
  [ascii "args", ascii "in", ascii "out", ascii "typed_vtable", ascii "context", ascii "handle"]

theorem Partition.variableOf_mem_dispatcherNames (s : Partition) (p : Param) :
    s.variableOf p ∈ dispatcherNames := by
  unfold variableOf dispatcherNames
  split_ifs <;> simp

/-- Other names take the place of none. -/
theorem ownNames_of_notMem (hnames : ∀ p ∈ node.parameters, p.name ∉ dispatcherNames) :
    OwnNames abi infos node := by
  constructor
  · intro p hp
    have hname := hnames p hp
    simp only [dispatcherNames, List.mem_cons, List.not_mem_nil, not_or] at hname
    exact ⟨hname.2.2.2.2.1, hname.2.2.2.2.2.1, hname.2.2.2.1⟩
  · intro p hp q hq _ heq
    refine hnames _ (node.node_mem_parameters hp) ?_
    rw [heq]
    exact Partition.variableOf_mem_dispatcherNames _ q

theorem nodup_stubNames (abi : ArchAbi) (pfx : Bytes)
    (hnodup : (node.parameters.map ParameterNode.name).Nodup) :
    (clientStub abi pfx node).parameterNames.Nodup ∧
      ∀ name ∈ (clientStub abi pfx node).parameterNames, name ∉ stubLocals := by
  have hstub : ((clientStub abi pfx node).parameters.map fun f => f.param.stubName)
      = (node.parameters.map ParameterNode.name).map (ascii "_" ++ ·) := by
    rw [parameters_clientStub, List.map_map, ← node.map_node_params, List.map_map, List.map_map]
    rfl
  have hhead : ∀ name ∈ (node.parameters.map ParameterNode.name).map (ascii "_" ++ ·),
      name.head? = some 0x5f := by
    intro name hname
    obtain ⟨n, -, rfl⟩ := List.mem_map.1 hname
    rfl
  have hlocals : ∀ name ∈ ascii "handle" :: stubLocals, name.head? ≠ some 0x5f := by decide
  rw [ClientStub.parameterNames, hstub]
  refine ⟨List.nodup_cons.2 ⟨?_, hnodup.map fun _ _ h => List.append_cancel_left h⟩, ?_⟩
  · exact fun h => hlocals _ List.mem_cons_self (hhead _ h)
  · rw [List.forall_mem_cons]
    refine ⟨by decide, fun name hname h => ?_⟩
    exact hlocals _ (List.mem_cons_of_mem _ h) (hhead _ hname)

/-- **The generated code is hygienic exactly for the functions whose names fit.** -/
theorem hygienic_iff (abi : ArchAbi) (pfx : Bytes) (infos : TypeValueInfos) (node : FunctionNode)
    (hnames : ∀ p ∈ node.parameters, IsIdentifier p.name)
    (hnodup : (node.parameters.map ParameterNode.name).Nodup) :
    Hygienic abi pfx infos node ↔ NamesFit abi infos node := by
  have hdeclared : (node.parameters.map (parameterDeclaration pfx)).map ParameterDeclaration.name
      = node.parameters.map ParameterNode.name := List.map_map
  constructor
  · -- the case of the dispatcher alone needs the condition
    exact fun h => (usesOwn_iff hnames).1 h.dispatchCase
  · intro h
    obtain ⟨hdefinition, hstubLocals⟩ := nodup_stubNames abi pfx hnodup
    have hcontext : ascii "context" ∉ node.parameters.map ParameterNode.name := by
      intro hmem
      obtain ⟨p, hp, hname⟩ := List.mem_map.1 hmem
      exact (h.1 p hp).1 hname
    have hhandle : ascii "handle" ∉ node.parameters.map ParameterNode.name := by
      intro hmem
      obtain ⟨p, hp, hname⟩ := List.mem_map.1 hmem
      exact (h.1 p hp).2.1 hname
    have hprototype : (ascii "handle" :: node.parameters.map ParameterNode.name).Nodup :=
      List.nodup_cons.2 ⟨hhandle, hnodup⟩
    refine ⟨?_, hdefinition, ?_, hstubLocals, (usesOwn_iff hnames).2 h⟩
    · rw [prototype, List.map_cons, hdeclared]
      exact hprototype
    · rw [vtableField, List.map_cons, List.map_cons, hdeclared]
      refine List.nodup_cons.2 ⟨?_, hprototype⟩
      rw [List.mem_cons]
      rintro (heq | hmem)
      · exact absurd heq (by decide)
      · exact hcontext hmem

end Condition

/-- A function with one scalar parameter of the given name. -/
def oneParameter (name : Bytes) : FunctionNode :=
  { name := ascii "f", annotations := [], id := 0
    parameters := [⟨.IN, .named false 0 (ascii "u32"), name, []⟩] }

/-- A parameter called `handle` takes the place of the dispatcher's handle. -/
theorem not_hygienic_handle :
    (∀ p ∈ (oneParameter (ascii "handle")).parameters, IsIdentifier p.name) ∧
      ((oneParameter (ascii "handle")).parameters.map ParameterNode.name).Nodup ∧
      ¬Hygienic x86_64 (ascii "smp") registerBuiltinTypeInfos (oneParameter (ascii "handle")) := by
  have hidentifier : IsIdentifier (ascii "handle") := by decide +kernel
  refine ⟨List.forall_mem_singleton.2 hidentifier, List.pairwise_singleton .., ?_⟩
  intro h
  exact absurd h.clientPrototype (by decide +kernel)

/-- `f(in u32 x, inout u16 y, out u32 args, out u32 b)` -/
def argsOutput : FunctionNode :=
  { name := ascii "f", annotations := [], id := 0
    parameters := [⟨.IN, .named false 0 (ascii "u32"), ascii "x", []⟩,
      ⟨.INOUT, .named false 0 (ascii "u16"), ascii "y", []⟩,
      ⟨.OUT, .named false 0 (ascii "u32"), ascii "args", []⟩,
      ⟨.OUT, .named false 0 (ascii "u32"), ascii "b", []⟩] }

/-- Behind the local variable `args`, everything is read from a block. -/
theorem hygienic_sample :
    Hygienic x86_64 (ascii "smp") registerBuiltinTypeInfos argsOutput := by
  refine (hygienic_iff x86_64 (ascii "smp") registerBuiltinTypeInfos argsOutput
    (by decide +kernel) (by decide)).2 ⟨by decide, ?_⟩
  unfold Partition.InBlock
  decide +kernel

end Sidlc
