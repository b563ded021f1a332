import Sidlc.Generate.Equiv.Hygiene
import Sidlc.Sif.Equiv.Canonical

/-!
# Where the parameters travel

A `Place` says where on the wire a parameter is. The client stub and the dispatch case of a function
each settle the places of its parameters in the code they consist of; `sameWire_iff` says when they
settle them alike. They do not for all functions: to the client every type but a pointer or an array
is a scalar, since nobody fills in `type_size` when an artifact is read, while the server looks the
type up. And a case declares its local variables under the names of the parameters, so that one
called `args` hides the words from the initializers behind it.
-/

namespace Sidlc

/-- Where on the wire a parameter is. -/
inductive Place where
  /-- `args[i]` is its value. -/
  | slot (i : Nat)
  /-- `args[i]` is a pointer, of the C type `type`, to its value. -/
  | pointee (i : Nat) (type : Bytes)
  /-- `args[i]` points at a block of these fields, one of them named after the parameter. -/
  | member (i : Nat) (fields : List BlockField)

/-! ### Reading the places off the code -/

namespace ClientStub

variable (stub : ClientStub)

def inPlaces : InArgument → List (Param × Place)
  | .null => []
  | .pointer p => [(p, .slot 0)]
  | .addressOf p => [(p, .pointee 0 (ascii "const " ++ stub.typeOf p ++ ascii " *"))]
  | .block =>
    let fields := stub.inBlock.getD []
    fields.map fun f => (f.param, .member 0 fields)

/-- What is passed for `out` points at the output of the parameters that are copied out of it. -/
def outPlaces : OutArgument → List (Param × Place)
  | .null => []
  | .pointer p => [(p, .pointee 1 (stub.typeOf p))]
  | .buffer =>
    match stub.outBuffer with
    | .absent => []
    | .single type => stub.copyOut.filterMap fun
      | .whole p => some (p, .pointee 1 (type ++ ascii " *"))
      | .field _ => none
    | .struct fields => fields.map fun f => (f.param, .member 1 fields)

/-- The values behind the two blocks. -/
def peelPlaces (peel : List (Option Param)) : List (Param × Place) :=
  (peel.mapIdx fun j p => p.map fun p => (p, .slot (2 + j))).filterMap id

/-- The places that the call of the stub gives the parameters. -/
def places : List (Param × Place) :=
  match stub.call with
  | .callK args => args.mapIdx fun i p => (p, .slot i)
  | .callN inArg outArg peel => stub.inPlaces inArg ++ stub.outPlaces outArg ++ peelPlaces peel

def usesCallK : Bool :=
  match stub.call with
  | .callK _ => true
  | .callN .. => false

end ClientStub

/-- Where a local variable of the dispatcher takes its value from: nowhere on the wire if it is
initialized from a variable of the case itself. An output parameter is itself a pointer to what it
stands for. -/
def DispatchCase.placeOf (c : DispatchCase) (l : DispatchLocal) (declared : List Bytes) :
    Option Place :=
  if l.IsCaptured declared then none
  else
    some (match l.init with
      | .slot i => .slot i
      | .pointerSlot i => if l.param.node.direction = .OUT then .pointee i l.type else .slot i
      | .load type => .pointee 0 (ascii "const " ++ type ++ ascii " *")
      | .inField _ => .member 0 (c.inBlock.getD [])
      | .outField _ => .member 1 (c.outBlock.getD []))

/-- The places where the case looks for the parameters. -/
def DispatchCase.places (c : DispatchCase) : List (Param × Place) :=
  (scopes [] c.locals).filterMap fun s => (c.placeOf s.1 s.2).map fun place => (s.1.param, place)

/-- The stub and the case use the same wire layout: the same kind of call, and the same place for
each parameter. -/
def SameWire (stub : ClientStub) (c : DispatchCase) : Prop :=
  stub.usesCallK = c.canUseCallReg ∧ ∀ p place, (p, place) ∈ stub.places ↔ (p, place) ∈ c.places

/-! ### The places of a partition -/

section Places

variable (pfx : Bytes) (s : Partition)

theorem stubType_eq (node : ParameterNode) : stubType pfx node = getParameterCType pfx node :=
  rfl

/-- The fields of the `in` block, as both sides declare them. -/
def inFields : List BlockField :=
  s.inParams.map fun p => ⟨getParameterCType pfx p.node, p⟩

def outFields : List BlockField :=
  s.outParams.map fun p => ⟨toCType pfx p.node.type, p⟩

/-- The place of an input parameter without a slot. -/
def inPlace (p : Param) : Place :=
  match s.inParams with
  | [q] =>
    if q.node.type.isPtr then .slot 0
    else .pointee 0 (ascii "const " ++ getParameterCType pfx p.node ++ ascii " *")
  | _ => .member 0 (inFields pfx s)

def outPlace (p : Param) : Place :=
  if s.outParams.length = 1 then .pointee 1 (getParameterCType pfx p.node)
  else .member 1 (outFields pfx s)

/-- The place of a parameter. -/
def placeIn (p : Param) : Place :=
  if s.canUseCallReg then .slot p.index
  else if p.node.direction = .OUT then outPlace pfx s p
  else if p ∈ s.peeledParams then .slot (2 + s.peeledParams.idxOf p)
  else inPlace pfx s p

end Places

theorem clientPartition_spec (abi : ArchAbi) (node : FunctionNode) :
    Partition.Spec (isScalar abi) (node.parameters.length ≤ abi.argSlotCount) abi.peelSlotCount
      node.params (clientPartition abi node) :=
  partition_spec ..

theorem serverPartition_spec (abi : ArchAbi) (infos : TypeValueInfos) (node : FunctionNode) :
    Partition.Spec (isScalarInRegisterParam abi infos)
      (node.parameters.length ≤ abi.argSlotCount) abi.peelSlotCount node.params
      (serverPartition abi infos node) :=
  partition_spec ..

/-! ### The client -/

section Client

variable {abi : ArchAbi} {pfx : Bytes} {node : FunctionNode}

theorem typeOf_clientStub {p : Param} (hp : p ∈ node.params) :
    (clientStub abi pfx node).typeOf p = getParameterCType pfx p.node := by
  have hfind : ∃ f, ((node.params.map fun p => (⟨stubType pfx p.node, p⟩ : BlockField)).find?
      fun f => f.param = p) = some f := by
    rw [← Option.isSome_iff_exists, List.find?_isSome]
    exact ⟨_, List.mem_map_of_mem hp, by simp⟩
  obtain ⟨f, hf⟩ := hfind
  have hparam : f.param = p := by simpa using List.find?_some hf
  obtain ⟨q, -, rfl⟩ := List.mem_map.1 (List.mem_of_find?_eq_some hf)
  obtain rfl : q = p := hparam
  rw [ClientStub.typeOf, parameters_clientStub, hf, stubType_eq]

theorem mem_peelPlaces {s : Partition} {p : Param} {place : Place}
    (hlen : s.peeledParams.length ≤ abi.peelSlotCount) (hnodup : s.peeledParams.Nodup) :
    (p, place) ∈ ClientStub.peelPlaces (peelOf abi s) ↔
      p ∈ s.peeledParams ∧ place = .slot (2 + s.peeledParams.idxOf p) := by
  simp only [ClientStub.peelPlaces, List.mem_filterMap, id_eq, exists_eq_right]
  rw [List.mem_iff_getElem?]
  simp only [List.getElem?_mapIdx, peelOf, List.getElem?_map]
  constructor
  · rintro ⟨j, hj⟩
    obtain ⟨o, ho, hsome⟩ := Option.map_eq_some_iff.1 hj
    obtain ⟨i, hi, rfl⟩ := Option.map_eq_some_iff.1 ho
    obtain ⟨q, hq, heq⟩ := Option.map_eq_some_iff.1 hsome
    obtain ⟨rfl, rfl⟩ := Prod.mk.inj heq
    -- the place in the list of slots is the place among the peeled
    obtain rfl : j = i := by
      obtain ⟨hlt, hget⟩ := List.getElem?_eq_some_iff.1 hi
      rw [List.getElem_range] at hget
      exact hget
    obtain ⟨hlt, hget⟩ := List.getElem?_eq_some_iff.1 hq
    refine ⟨List.mem_of_getElem? hq, ?_⟩
    rw [← hget, hnodup.idxOf_getElem]
  · rintro ⟨hmem, rfl⟩
    have hlt := List.idxOf_lt_length_iff.2 hmem
    refine ⟨s.peeledParams.idxOf p, ?_⟩
    rw [List.getElem?_range (by omega), Option.map_some, List.getElem?_eq_getElem hlt,
      List.getElem_idxOf]
    rfl

theorem mem_map_pair_iff {α β : Type} {f : α → β} {l : List α} {a : α} {b : β} :
    (a, b) ∈ l.map (fun x => (x, f x)) ↔ a ∈ l ∧ b = f a := by
  simp only [List.mem_map, Prod.mk.injEq]
  constructor
  · rintro ⟨x, hx, rfl, rfl⟩
    exact ⟨hx, rfl⟩
  · rintro ⟨ha, rfl⟩
    exact ⟨a, ha, rfl, rfl⟩

theorem mem_inPlaces {s : Partition} (hs : s = clientPartition abi node)
    (hreg : s.canUseCallReg = false) (hin : ∀ p ∈ s.inParams, p ∈ node.params) {p : Param}
    {place : Place} :
    (p, place) ∈ (clientStub abi pfx node).inPlaces (inArgumentOf s) ↔
      p ∈ s.inParams ∧ place = inPlace pfx s p := by
  have hblock : (clientStub abi pfx node).inBlock = inBlockOf pfx s := by
    unfold clientStub
    simp only [← hs, hreg, Bool.false_eq_true, if_false]
  rcases hparams : s.inParams with _ | ⟨q, _ | ⟨r, rest⟩⟩
  · simp [inArgumentOf, hparams, ClientStub.inPlaces]
  · -- one parameter needs no block
    have hq : q ∈ node.params := hin q (by rw [hparams]; exact List.mem_cons_self)
    by_cases hptr : q.node.type.isPtr = true
    · simp only [inArgumentOf, hparams, hptr, if_true, ClientStub.inPlaces, inPlace,
        List.mem_singleton, Prod.mk.injEq]
    · simp only [inArgumentOf, hparams, hptr, Bool.false_eq_true, if_false, ClientStub.inPlaces,
        inPlace, List.mem_singleton, Prod.mk.injEq, typeOf_clientStub hq]
      exact and_congr_right fun h => by rw [h]
  · have hfields : (clientStub abi pfx node).inBlock.getD [] = inFields pfx s := by
      rw [hblock, inBlockOf, if_pos (by rw [hparams]; simp), Option.getD_some]
      rfl
    simp only [inArgumentOf, hparams, ClientStub.inPlaces, hfields, inPlace]
    rw [← hparams]
    rw [inFields, List.map_map]
    exact mem_map_pair_iff

theorem mem_outPlaces {s : Partition} (hs : s = clientPartition abi node)
    (hreg : s.canUseCallReg = false) (hout : ∀ p ∈ s.outParams, p ∈ node.params)
    (hdirection : ∀ p ∈ s.outParams, p.node.direction = .OUT) {p : Param} {place : Place} :
    (p, place) ∈ (clientStub abi pfx node).outPlaces (outArgumentOf s) ↔
      p ∈ s.outParams ∧ place = outPlace pfx s p := by
  have hbuffer : (clientStub abi pfx node).outBuffer = outBufferOf pfx s := by
    unfold clientStub
    simp only [← hs, hreg, Bool.false_eq_true, if_false]
  have hcopy : (clientStub abi pfx node).copyOut = copyOutOf s := by
    unfold clientStub
    simp only [← hs, hreg, Bool.false_eq_true, if_false]
  rcases hparams : s.outParams with _ | ⟨q, _ | ⟨r, rest⟩⟩
  · simp [outArgumentOf, hparams, ClientStub.outPlaces]
  · -- one parameter needs no block
    have hq : q ∈ node.params := hout q (by rw [hparams]; exact List.mem_cons_self)
    have hqout := hdirection q (by rw [hparams]; exact List.mem_cons_self)
    by_cases hptr : q.node.type.isPtr = true
    · simp only [outArgumentOf, hparams, hptr, if_true, ClientStub.outPlaces, outPlace,
        List.mem_singleton, Prod.mk.injEq, typeOf_clientStub hq, List.length_singleton]
      exact and_congr_right fun h => by rw [h]
    · have htype : toCType pfx q.node.type ++ ascii " *" = getParameterCType pfx q.node := by
        simp [getParameterCType, hptr, hqout]
      have hcopy' : copyOutOf s = [.whole q] := by
        unfold copyOutOf
        rw [hparams]
        simp only [hptr, Bool.false_eq_true, if_false]
      have hbuffer' : outBufferOf pfx s = .single (toCType pfx q.node.type) := by
        unfold outBufferOf
        rw [hparams]
        simp only [hptr, Bool.false_eq_true, if_false]
      have harg : outArgumentOf s = .buffer := by
        unfold outArgumentOf
        rw [hparams]
        simp only [hptr, Bool.false_eq_true, if_false]
      rw [harg, ClientStub.outPlaces, hbuffer, hbuffer', hcopy, hcopy']
      simp only [List.filterMap_cons, List.filterMap_nil, List.mem_singleton, Prod.mk.injEq,
        outPlace, hparams, List.length_singleton, if_true, htype]
      exact and_congr_right fun h => by rw [h]
  · have hlen : s.outParams.length ≠ 1 := by rw [hparams]; simp
    have harg : outArgumentOf s = .buffer := by
      unfold outArgumentOf
      rw [hparams]
    have hbuffer' : outBufferOf pfx s = .struct (outFields pfx s) := by
      unfold outBufferOf outFields
      rw [hparams]
    rw [harg, ClientStub.outPlaces, hbuffer, hbuffer', ← hparams, outPlace, if_neg hlen]
    simp only [outFields, List.map_map]
    exact mem_map_pair_iff

/-- **The client puts every parameter at its place in the client's partition.** -/
theorem mem_places_clientStub {p : Param} {place : Place} :
    (p, place) ∈ (clientStub abi pfx node).places ↔
      p ∈ node.params ∧ place = placeIn pfx (clientPartition abi node) p := by
  have hspec := clientPartition_spec abi node
  set s := clientPartition abi node with hs
  rw [ClientStub.places]
  by_cases hreg : s.canUseCallReg = true
  · -- in registers, a parameter has the slot of its index
    have hcall : (clientStub abi pfx node).call = .callK node.params := by
      unfold clientStub
      simp only [← hs, hreg, if_true]
    rw [hcall, placeIn, if_pos hreg]
    simp only [List.mem_iff_getElem? (l := List.mapIdx _ _), List.getElem?_mapIdx]
    constructor
    · rintro ⟨i, hi⟩
      obtain ⟨q, hq, heq⟩ := Option.map_eq_some_iff.1 hi
      obtain ⟨rfl, rfl⟩ := Prod.mk.inj heq
      rw [node.getElem?_params] at hq
      obtain ⟨n, hn, rfl⟩ := Option.map_eq_some_iff.1 hq
      refine ⟨List.mem_of_getElem? (i := i) ?_, rfl⟩
      rw [node.getElem?_params, hn]
      rfl
    · rintro ⟨hmem, rfl⟩
      exact ⟨p.index, by rw [FunctionNode.getElem?_index hmem]; rfl⟩
  · have hreg := Bool.eq_false_iff.2 hreg
    have hcall : (clientStub abi pfx node).call
        = .callN (inArgumentOf s) (outArgumentOf s) (peelOf abi s) := by
      unfold clientStub
      simp only [← hs, hreg, Bool.false_eq_true, if_false]
    have hin : ∀ p ∈ s.inParams, p ∈ node.params := fun p hp => (hspec.mem_iff p).2 (.inl hp)
    have hout : ∀ p ∈ s.outParams, p ∈ node.params :=
      fun p hp => (hspec.mem_iff p).2 (.inr (.inl hp))
    rw [hcall]
    simp only [List.mem_append]
    rw [mem_inPlaces hs hreg hin,
      mem_outPlaces hs hreg hout fun p hp => hspec.direction_of_mem_out hp,
      mem_peelPlaces hspec.length_peeledParams_le (hspec.nodup_peeledParams node.nodup_params),
      hspec.mem_iff, placeIn, if_neg (by rw [hreg]; exact Bool.false_ne_true)]
    by_cases hdir : p.node.direction = .OUT
    · -- output is in no other group
      have hnin : p ∉ s.inParams := fun hp => (hspec.direction_of_mem_in hp).1 hdir
      have hnpeel : p ∉ s.peeledParams := fun hp => by
        have := hspec.isInScalar_of_mem_peeled hp
        simp [Partition.IsInScalar, hdir] at this
      rw [if_pos hdir]
      simp [hnin, hnpeel]
    · have hnout : p ∉ s.outParams := fun hp => hdir (hspec.direction_of_mem_out hp)
      rw [if_neg hdir]
      by_cases hpeel : p ∈ s.peeledParams
      · have hnin : p ∉ s.inParams := fun hp => (hspec.direction_of_mem_in hp).2 hpeel
        rw [if_pos hpeel]
        simp [hnin, hnout, hpeel]
      · rw [if_neg hpeel]
        simp [hnout, hpeel]

end Client

/-! ### The server -/

section Server

variable {abi : ArchAbi} {infos : TypeValueInfos} {pfx : Bytes} {node : FunctionNode}

theorem isScalarInRegisterParam_iff {p : ParameterNode} :
    isScalarInRegisterParam abi infos p = true ↔
      p.direction = .IN ∧ p.type.isPtr = false ∧ p.type.isArray = false ∧
        0 < getTypeValueInfo infos p.type ∧ getTypeValueInfo infos p.type ≤ abi.pointerSize := by
  unfold isScalarInRegisterParam
  split_ifs with hdir hptr
  · simp [hdir]
  · simp only [Bool.or_eq_true] at hptr
    rcases hptr with hptr | harray
    · simp [hptr]
    · simp [harray]
  · simp only [Bool.or_eq_true, not_or, Bool.not_eq_true] at hptr
    rw [not_not] at hdir
    simp [hdir, hptr]

theorem inBlock_dispatchCase (abi : ArchAbi) (pfx : Bytes) (infos : TypeValueInfos)
    (node : FunctionNode) : (dispatchCase abi pfx infos node).inBlock =
      if !(serverPartition abi infos node).canUseCallReg
        && (serverPartition abi infos node).inParams.length > 1 then
        some (inFields pfx (serverPartition abi infos node)) else none :=
  rfl

theorem outBlock_dispatchCase (abi : ArchAbi) (pfx : Bytes) (infos : TypeValueInfos)
    (node : FunctionNode) : (dispatchCase abi pfx infos node).outBlock =
      if !(serverPartition abi infos node).canUseCallReg
        && (serverPartition abi infos node).outParams.length > 1 then
        some (outFields pfx (serverPartition abi infos node)) else none :=
  rfl

/-- The locals of the case are where the server's partition puts the parameters. -/
theorem placeOf_localOf {p : Param} (hp : p ∈ node.params) {names : List Bytes}
    (hown : ¬(localOf pfx (serverPartition abi infos node) p).IsCaptured names) :
    (dispatchCase abi pfx infos node).placeOf (localOf pfx (serverPartition abi infos node) p) names
      = some (placeIn pfx (serverPartition abi infos node) p) := by
  rw [DispatchCase.placeOf, if_neg hown, Option.some.injEq, localOf]
  have hspec := serverPartition_spec abi infos node
  have hinBlock := inBlock_dispatchCase abi pfx infos node
  have houtBlock := outBlock_dispatchCase abi pfx infos node
  set s := serverPartition abi infos node
  unfold argExpression placeIn
  by_cases hreg : s.canUseCallReg = true
  · -- all parameters are scalars, which are no pointers
    have hall : isScalarInRegisterParam abi infos p.node = true := by
      rw [hspec.canUseCallReg, Bool.and_eq_true] at hreg
      exact List.all_eq_true.1 hreg.2 p hp
    obtain ⟨hdir, hptr, harray, -⟩ := isScalarInRegisterParam_iff.1 hall
    have huses : parameterUsesPointerArgument p.node = false := by
      simp [parameterUsesPointerArgument, hdir, hptr, harray]
    simp only [hreg, huses, if_true, Bool.false_eq_true, if_false]
  · have hreg := Bool.eq_false_iff.2 hreg
    simp only [hreg, Bool.false_eq_true, if_false]
    by_cases hdir : p.node.direction = .OUT
    · have hmem : p ∈ s.outParams := by
        rw [hspec.outParams]
        exact List.mem_filter.2 ⟨hp, by simpa using hdir⟩
      have hpos := List.length_pos_of_mem hmem
      by_cases hlen : s.outParams.length = 1
      · simp only [hdir, hlen, if_true, outPlace]
      · have hgt : s.outParams.length > 1 := by omega
        simp only [hdir, hlen, if_true, if_false, outPlace, houtBlock, hreg, hgt, Bool.not_false,
          decide_true, Bool.and_self, Option.getD_some]
    · simp only [hdir, if_false]
      by_cases hpeel : p ∈ s.peeledParams
      · simp only [hpeel, if_true]
      · simp only [hpeel, if_false, inPlace]
        -- what is neither output nor peeled is input
        have hmem : p ∈ s.inParams := by
          rcases (hspec.mem_iff p).1 hp with h | h | h
          · exact h
          · exact absurd (hspec.direction_of_mem_out h) hdir
          · exact absurd h hpeel
        rcases hparams : s.inParams with _ | ⟨q, _ | ⟨r, rest⟩⟩
        · rw [hparams] at hmem
          cases hmem
        · by_cases hptr : q.node.type.isPtr = true
          · simp only [hptr, if_true]
          · simp only [hptr, Bool.false_eq_true, if_false]
        · have hgt : s.inParams.length > 1 := by rw [hparams]; simp
          simp only [hinBlock, hreg, hgt, Bool.not_false, decide_true, Bool.and_self, if_true,
            Option.getD_some]

/-- **The server looks for a parameter at its place in the server's partition**, unless a local
variable has taken the place of what it reads. -/
theorem mem_places_dispatchCase {p : Param} {place : Place} :
    (p, place) ∈ (dispatchCase abi pfx infos node).places ↔
      (p ∈ node.params ∧ place = placeIn pfx (serverPartition abi infos node) p) ∧
        ¬Hides abi infos node p := by
  rw [DispatchCase.places, List.mem_filterMap]
  constructor
  · rintro ⟨⟨l, names⟩, hscope, hplace⟩
    obtain ⟨q, hq, rfl, hcaptured⟩ := mem_scopes_dispatchCase hscope
    obtain ⟨place', hplace', heq⟩ := Option.map_eq_some_iff.1 hplace
    obtain ⟨rfl, rfl⟩ := Prod.mk.inj heq
    have hown : ¬(localOf pfx (serverPartition abi infos node) q).IsCaptured names := by
      intro h
      simp only [DispatchCase.placeOf, if_pos h] at hplace'
      cases hplace'
    rw [placeOf_localOf hq hown] at hplace'
    exact ⟨⟨hq, (Option.some.inj hplace').symm⟩, fun h => hown (hcaptured.2 h)⟩
  · rintro ⟨⟨hp, rfl⟩, hown⟩
    obtain ⟨names, hscope⟩ := exists_mem_scopes abi pfx infos hp
    obtain ⟨q, -, hlocal, hcaptured⟩ := mem_scopes_dispatchCase hscope
    obtain rfl : p = q := congrArg DispatchLocal.param hlocal
    refine ⟨_, hscope, ?_⟩
    rw [placeOf_localOf hp fun h => hown (hcaptured.1 h)]
    rfl

end Server

/-! ### When the two agree -/

section Agreement

variable {abi : ArchAbi} {infos : TypeValueInfos} {pfx : Bytes} {node : FunctionNode}

/-- Input by value that is no array, which the client takes for a scalar. -/
def ParameterNode.IsValue (node : ParameterNode) : Prop :=
  node.direction = .IN ∧ node.type.isPtr = false ∧ node.type.isArray = false

instance : DecidablePred ParameterNode.IsValue := fun node =>
  inferInstanceAs (Decidable (node.direction = .IN ∧ node.type.isPtr = false ∧
    node.type.isArray = false))

/-- The parameters that the client puts into slots of their own: all of them where they fit and are
scalars to it, and the first ones among those that are otherwise. -/
def clientSlots (abi : ArchAbi) (node : FunctionNode) : List Param :=
  if node.parameters.length ≤ abi.argSlotCount ∧ ∀ p ∈ node.parameters, p.IsValue then node.params
  else (node.params.filter fun p => decide p.node.IsValue).take abi.peelSlotCount

/-- A type without a size is a scalar to the client. -/
theorem isScalar_iff {p : ParameterNode} (h : p.type.typeSize = 0) :
    isScalar abi p = true ↔ p.IsValue := by
  simp [isScalar, h, ParameterNode.IsValue, and_assoc]

theorem isValue_of_isScalarInRegisterParam {p : ParameterNode}
    (h : isScalarInRegisterParam abi infos p = true) : p.IsValue := by
  obtain ⟨hdir, hptr, harray, -⟩ := isScalarInRegisterParam_iff.1 h
  exact ⟨hdir, hptr, harray⟩

/-- The server passes values alone in registers. -/
theorem isValue_of_canUseCallReg (hreg : (serverPartition abi infos node).canUseCallReg = true) :
    ∀ p ∈ node.params, p.node.IsValue := by
  intro p hp
  rw [(serverPartition_spec abi infos node).canUseCallReg, Bool.and_eq_true] at hreg
  exact isValue_of_isScalarInRegisterParam (List.all_eq_true.1 hreg.2 p hp)

theorem usesCallK_clientStub :
    (clientStub abi pfx node).usesCallK = (clientPartition abi node).canUseCallReg := by
  unfold clientStub ClientStub.usesCallK
  simp only
  split_ifs with hreg
  · exact hreg.symm
  · exact (Bool.eq_false_iff.2 hreg).symm

/-! #### The two partitions -/

section NoSizes

variable (hsize : ∀ p ∈ node.parameters, p.type.typeSize = 0)

include hsize

theorem isScalar_eq_isValue {p : Param} (hp : p ∈ node.params) :
    isScalar abi p.node = decide p.node.IsValue := by
  rw [Bool.eq_iff_iff, isScalar_iff (hsize _ (node.node_mem_parameters hp)), decide_eq_true_eq]

theorem canUseCallReg_client_iff : (clientPartition abi node).canUseCallReg = true ↔
    node.parameters.length ≤ abi.argSlotCount ∧ ∀ p ∈ node.parameters, p.IsValue := by
  have hall : (node.params.all fun p => isScalar abi p.node) = true ↔
      ∀ p ∈ node.parameters, p.IsValue := by
    rw [List.all_eq_true, ← node.map_node_params, List.forall_mem_map]
    refine forall₂_congr fun p hp => ?_
    rw [isScalar_eq_isValue hsize hp, decide_eq_true_eq]
  rw [(clientPartition_spec abi node).canUseCallReg, Bool.and_eq_true, decide_eq_true_eq, hall]

theorem peeledParams_client : (clientPartition abi node).peeledParams
    = (node.params.filter fun p => decide p.node.IsValue).take abi.peelSlotCount := by
  have hfilter : node.params.filter (Partition.IsInScalar (isScalar abi))
      = node.params.filter fun p => decide p.node.IsValue := by
    refine List.filter_congr fun p hp => ?_
    rw [Partition.IsInScalar, isScalar_eq_isValue hsize hp, Bool.eq_iff_iff]
    simp only [Bool.and_eq_true, decide_eq_true_eq, and_iff_right_iff_imp]
    intro hv
    rw [hv.1]
    decide
  rw [(clientPartition_spec abi node).peeledParams, hfilter]

/-- The server uses the registers only where the client does. -/
theorem canUseCallReg_client_of_server
    (h : (serverPartition abi infos node).canUseCallReg = true) :
    (clientPartition abi node).canUseCallReg = true := by
  have hvalues := isValue_of_canUseCallReg h
  rw [(serverPartition_spec abi infos node).canUseCallReg, Bool.and_eq_true, decide_eq_true_eq] at h
  refine (canUseCallReg_client_iff hsize).2 ⟨h.1, ?_⟩
  rwa [← node.map_node_params, List.forall_mem_map]

end NoSizes

theorem peeledParams_server : (serverPartition abi infos node).peeledParams
    = (node.params.filter fun p => isScalarInRegisterParam abi infos p.node).take
        abi.peelSlotCount := by
  have hfilter : node.params.filter (Partition.IsInScalar (isScalarInRegisterParam abi infos))
      = node.params.filter fun p => isScalarInRegisterParam abi infos p.node := by
    refine List.filter_congr fun p hp => ?_
    rw [Partition.IsInScalar, Bool.eq_iff_iff]
    simp only [Bool.and_eq_true, decide_eq_true_eq, and_iff_right_iff_imp]
    intro hv
    rw [(isScalarInRegisterParam_iff.1 hv).1]
    decide
  rw [(serverPartition_spec abi infos node).peeledParams, hfilter]

/-- Among the words that go with the blocks there are only scalars of the server. -/
theorem isScalarInRegisterParam_of_placeIn
    (hreg : (serverPartition abi infos node).canUseCallReg = false) {p : Param}
    (hp : p ∈ node.params) (hvalue : p.node.IsValue) {i : Nat}
    (hplace : placeIn pfx (serverPartition abi infos node) p = .slot i) :
    isScalarInRegisterParam abi infos p.node = true := by
  have hspec := serverPartition_spec abi infos node
  have hdir : p.node.direction ≠ .OUT := by
    rw [hvalue.1]
    decide
  rw [placeIn, if_neg (by rw [hreg]; exact Bool.false_ne_true), if_neg hdir] at hplace
  by_cases hpeel : p ∈ (serverPartition abi infos node).peeledParams
  · have hscalar := hspec.isInScalar_of_mem_peeled hpeel
    rw [Partition.IsInScalar, Bool.and_eq_true] at hscalar
    exact hscalar.2
  -- any other input is behind a pointer
  exfalso
  rw [if_neg hpeel, inPlace] at hplace
  have hin : p ∈ (serverPartition abi infos node).inParams := by
    rcases (hspec.mem_iff p).1 hp with h | h | h
    · exact h
    · exact absurd (hspec.direction_of_mem_out h) hdir
    · exact absurd h hpeel
  rcases hparams : (serverPartition abi infos node).inParams with _ | ⟨q, _ | ⟨r, rest⟩⟩
  · rw [hparams] at hin
    cases hin
  · rw [hparams] at hin hplace
    obtain rfl := List.mem_singleton.1 hin
    simp [hvalue.2.1] at hplace
  · rw [hparams] at hplace
    cases hplace

/-- The code of the two sides agrees where their partitions do, and no local variable hides what the
server reads. -/
theorem sameWire_iff_placeIn :
    SameWire (clientStub abi pfx node) (dispatchCase abi pfx infos node) ↔
      ((clientPartition abi node).canUseCallReg = (serverPartition abi infos node).canUseCallReg ∧
        ∀ p ∈ node.params, placeIn pfx (clientPartition abi node) p
          = placeIn pfx (serverPartition abi infos node) p) ∧ ReadsOwn abi infos node := by
  rw [SameWire, usesCallK_clientStub, readsOwn_iff_not_hides, and_assoc]
  simp only [mem_places_clientStub, mem_places_dispatchCase]
  refine and_congr_right fun _ => ⟨fun h => ⟨fun p hp => ?_, fun p hp => ?_⟩, ?_⟩
  · exact ((h p _).1 ⟨hp, rfl⟩).1.2
  · exact ((h p _).1 ⟨hp, rfl⟩).2
  · rintro ⟨hplace, hown⟩ p place
    constructor
    · rintro ⟨hp, rfl⟩
      exact ⟨⟨hp, hplace p hp⟩, hown p hp⟩
    · rintro ⟨⟨hp, rfl⟩, -⟩
      exact ⟨hp, (hplace p hp).symm⟩

/-- The partitions give the parameters the same places exactly when every parameter that the client
puts into a slot of its own is a scalar to the server. -/
theorem placeIn_eq_iff (hsize : ∀ p ∈ node.parameters, p.type.typeSize = 0) :
    ((clientPartition abi node).canUseCallReg = (serverPartition abi infos node).canUseCallReg ∧
        ∀ p ∈ node.params, placeIn pfx (clientPartition abi node) p
          = placeIn pfx (serverPartition abi infos node) p) ↔
      ∀ p ∈ clientSlots abi node, isScalarInRegisterParam abi infos p.node = true := by
  have hclient := clientPartition_spec abi node
  have hserver := serverPartition_spec abi infos node
  unfold clientSlots
  split_ifs with hregister
  · -- the client uses the registers
    have hclientReg := (canUseCallReg_client_iff hsize).2 hregister
    have hserverReg : (serverPartition abi infos node).canUseCallReg = true ↔
        ∀ p ∈ node.params, isScalarInRegisterParam abi infos p.node = true := by
      rw [hserver.canUseCallReg, decide_eq_true hregister.1, Bool.true_and, List.all_eq_true]
    constructor
    · rintro ⟨hreg, -⟩
      exact hserverReg.1 (hreg.symm.trans hclientReg)
    · intro hscalar
      refine ⟨hclientReg.trans (hserverReg.2 hscalar).symm, fun p _ => ?_⟩
      rw [placeIn, placeIn, if_pos hclientReg, if_pos (hserverReg.2 hscalar)]
  · -- neither side does
    have hclientReg : (clientPartition abi node).canUseCallReg = false :=
      Bool.eq_false_iff.2 fun h => hregister ((canUseCallReg_client_iff hsize).1 h)
    have hserverReg : (serverPartition abi infos node).canUseCallReg = false :=
      Bool.eq_false_iff.2 fun h =>
        absurd (canUseCallReg_client_of_server hsize h) (Bool.eq_false_iff.1 hclientReg)
    constructor
    · rintro ⟨-, hplaces⟩ p hp
      obtain ⟨hparam, hvalue⟩ := List.mem_filter.1 (List.mem_of_mem_take hp)
      have hvalue := of_decide_eq_true hvalue
      have hdir : p.node.direction ≠ .OUT := by
        rw [hvalue.1]
        decide
      rw [← peeledParams_client hsize] at hp
      have hslot : placeIn pfx (clientPartition abi node) p
          = .slot (2 + (clientPartition abi node).peeledParams.idxOf p) := by
        rw [placeIn, if_neg (by rw [hclientReg]; exact Bool.false_ne_true), if_neg hdir, if_pos hp]
      exact isScalarInRegisterParam_of_placeIn hserverReg hparam hvalue
        ((hplaces p hparam).symm.trans hslot)
    · intro hscalar
      -- the slots of the client hold scalars of the server, so the server takes the same ones
      have hpeeled : (clientPartition abi node).peeledParams
          = (serverPartition abi infos node).peeledParams := by
        rw [peeledParams_client hsize, peeledParams_server]
        refine (take_filter_congr (fun p hp => ?_) hscalar).symm
        exact decide_eq_true (isValue_of_isScalarInRegisterParam hp)
      have heq := hclient.congr hserver (hclientReg.trans hserverReg.symm) hpeeled
      rw [heq]
      exact ⟨rfl, fun _ _ => rfl⟩

/-- **The two sides agree on a function exactly when every parameter that the client puts into a
slot of its own is a scalar to the server, and no parameter hides what the server reads.** -/
theorem sameWire_clientStub_iff (hsize : ∀ p ∈ node.parameters, p.type.typeSize = 0) :
    SameWire (clientStub abi pfx node) (dispatchCase abi pfx infos node) ↔
      (∀ p ∈ clientSlots abi node, isScalarInRegisterParam abi infos p.node = true) ∧
        ReadsOwn abi infos node := by
  rw [sameWire_iff_placeIn, placeIn_eq_iff hsize]

end Agreement

/-! ### Interfaces that were read -/

theorem TypeNode.typeSize_bare (t : TypeNode) : t.bare.typeSize = 0 := by
  cases t <;> rfl

/-- Reading leaves the sizes of the types at zero. -/
theorem typeSize_of_sifRead {bs : Bytes} {interface : InterfaceNode}
    (h : sifRead bs = .ok interface) {f : FunctionNode}
    (hf : f ∈ functionsOf interface.abiversions) {p : ParameterNode} (hp : p ∈ f.parameters) :
    p.type.typeSize = 0 := by
  obtain ⟨hd, -⟩ := (sifRead_eq_ok_iff ..).1 h
  rw [← hd.stamped, InterfaceNode.functionsOf_stampRevisions] at hf
  obtain ⟨g, -, rfl⟩ := List.mem_map.1 hf
  obtain ⟨q, -, rfl⟩ := List.mem_map.1 hp
  exact q.type.typeSize_bare

/-- **In every interface that was read, the client stub and the dispatch case of a function use the
same wire layout exactly when every parameter that the client puts into a slot of its own is a
scalar by the server's table of types, and no parameter is called like the variable that it, or one
behind it, is read from.** -/
theorem sameWire_iff (bs : Bytes) (interface : InterfaceNode) (h : sifRead bs = .ok interface)
    (abi : ArchAbi) (f : FunctionNode) (hf : f ∈ functionsOf interface.abiversions) :
    SameWire (clientStub abi interface.prefixStr f)
        (dispatchCase abi interface.prefixStr (typeValueInfos interface) f) ↔
      (∀ p ∈ clientSlots abi f,
        isScalarInRegisterParam abi (typeValueInfos interface) p.node = true) ∧
      ReadsOwn abi (typeValueInfos interface) f :=
  sameWire_clientStub_iff fun _ hp => typeSize_of_sifRead h hf hp

/-- `struct S`, and a function. -/
def revisionOf (f : FunctionNode) : AbiversionNode :=
  { version := 0, structs := [⟨ascii "S", [], []⟩], functions := [f] }

theorem mem_functionsOf_revisionOf {f : FunctionNode} (hf : f.bare = f) :
    f ∈ functionsOf (sampleRead (revisionOf f)).abiversions := by
  rw [functionsOf_sampleRead]
  exact List.mem_singleton.2 hf.symm

theorem typeValueInfos_revisionOf (f : FunctionNode) :
    typeValueInfos (sampleRead (revisionOf f)) = (ascii "S", 0) :: registerBuiltinTypeInfos := by
  obtain ⟨abiHash, hrev⟩ := abiversions_sampleRead (revisionOf f)
  rw [typeValueInfos, hrev]
  rfl

/-- `f(in S x)` -/
def structInput : FunctionNode :=
  { name := ascii "f", annotations := [], id := 0
    parameters := [⟨.IN, .named false 0 (ascii "S"), ascii "x", []⟩] }

/-- `f(out u32 args, out u32 b, in array<u8> x)` -/
def argsHiding : FunctionNode :=
  { name := ascii "f", annotations := [], id := 0
    parameters := [⟨.OUT, .named false 0 (ascii "u32"), ascii "args", []⟩,
      ⟨.OUT, .named false 0 (ascii "u32"), ascii "b", []⟩,
      ⟨.IN, .array false 0 (.named false 0 (ascii "u8")), ascii "x", []⟩] }

/-- A file with the function is read, and its client and its server place the parameters of the
function differently. -/
def WiredApart (f : FunctionNode) : Prop :=
  sifRead (CellFormat.encode (sampleRead (revisionOf f)).layout) = .ok (sampleRead (revisionOf f)) ∧
    f ∈ functionsOf (sampleRead (revisionOf f)).abiversions ∧
    ¬SameWire (clientStub x86_64 (sampleRead (revisionOf f)).prefixStr f)
      (dispatchCase x86_64 (sampleRead (revisionOf f)).prefixStr
        (typeValueInfos (sampleRead (revisionOf f))) f)

/-- A structure by value goes into a register of the client, and into a block of the server. And
behind a local variable `args`, the server does not read the words of the client. -/
theorem not_sameWire_each : WiredApart structInput ∧ WiredApart argsHiding := by
  refine ⟨⟨sifRead_sampleRead rfl (by decide), mem_functionsOf_revisionOf rfl, ?_⟩,
    sifRead_sampleRead rfl (by decide), mem_functionsOf_revisionOf rfl, ?_⟩
  · rw [sameWire_clientStub_iff (by decide), typeValueInfos_revisionOf]
    decide +kernel
  · rw [sameWire_clientStub_iff (by decide), typeValueInfos_revisionOf]
    decide +kernel

/-- Input in a slot and behind a pointer, and a block of output with the name `args`. -/
theorem sameWire_argsOutput :
    SameWire (clientStub x86_64 (sampleRead (revisionOf argsOutput)).prefixStr argsOutput)
      (dispatchCase x86_64 (sampleRead (revisionOf argsOutput)).prefixStr
        (typeValueInfos (sampleRead (revisionOf argsOutput))) argsOutput) :=
  (sameWire_iff _ _ (sifRead_sampleRead rfl (by decide)) x86_64 _
    (mem_functionsOf_revisionOf rfl)).2 (by
      rw [typeValueInfos_revisionOf]
      decide +kernel)

end Sidlc
