import Sidlc.Generate.Equiv.Builds
import Sidlc.Generate.Execution

/-!
# What a call passes

The two halves of a call of a generated pair: the words that a stub passes for the arguments
(`passed_callN`), and what a dispatch case makes of words. Behind the call the output is copied
byte by byte (`exists_copyOut`), since the caller's locations can overlap.
-/

namespace Sidlc

open CValue

/-- A loop that succeeds for every element. -/
theorem mapM_eq_some_map {α β : Type} {f : α → Option β} {g : α → β} {l : List α}
    (h : ∀ a ∈ l, f a = some (g a)) : l.mapM f = some (l.map g) := by
  induction l with
  | nil => rfl
  | cons a l ih =>
    rw [List.forall_mem_cons] at h
    rw [List.mapM_cons, h.1, ih h.2]
    rfl

/-- The arguments are values of the types of the parameters. -/
def Typed (M : Machine) (pfx : Bytes) (node : FunctionNode) (arg : Param → Value) : Prop :=
  ∀ p ∈ node.params, ∀ k, M.kindOf (getParameterCType pfx p.node) = some k → HasKind k (arg p)

section Calls

variable {M : Machine} {abi : ArchAbi} {pfx : Bytes} {infos : TypeValueInfos} {node : FunctionNode}
  {arg : Param → Value}

theorem eq_of_name_eq (hnodup : (node.parameters.map ParameterNode.name).Nodup) {p q : Param}
    (hp : p ∈ node.params) (hq : q ∈ node.params) (h : p.node.name = q.node.name) : p = q := by
  rw [← node.map_node_params, List.map_map] at hnodup
  exact List.inj_on_of_nodup_map hnodup hp hq h

theorem Builds.exists_kind (h : Builds M abi pfx infos node) {p : Param} (hp : p ∈ node.params) :
    ∃ k, M.kindOf (getParameterCType pfx p.node) = some k :=
  Option.isSome_iff_exists.1 (h.types p.node (node.node_mem_parameters hp))

theorem Builds.exists_pointer (h : Builds M abi pfx infos node) (htyped : Typed M pfx node arg)
    {p : Param} (hp : p ∈ node.params) (hptr : p.node.direction ≠ .IN ∨ p.node.type.isPtr = true) :
    ∃ a, arg p = .pointer a := by
  obtain ⟨k, hk⟩ := h.exists_kind hp
  obtain rfl := kind_eq_pointer hptr hk
  exact exists_of_hasKind_pointer (htyped p hp _ hk)

theorem Builds.isScalar_of_pointer (h : Builds M abi pfx infos node) {p : Param}
    (hp : p ∈ node.params) (hptr : p.node.direction ≠ .IN ∨ p.node.type.isPtr = true) :
    M.IsScalar (getParameterCType pfx p.node) :=
  Sidlc.isScalar_of_pointer hptr (h.types p.node (node.node_mem_parameters hp))

/-! ### The client -/

theorem valueOf_clientStub (hnodup : (node.parameters.map ParameterNode.name).Nodup) {p : Param}
    (hp : p ∈ node.params) :
    (clientStub abi pfx node).valueOf (node.params.map arg) p = some (arg p) := by
  rw [ClientStub.valueOf, parameters_clientStub, List.zip_map', List.find?_map]
  have hsome : ∃ q, node.params.find? ((fun f : BlockField × Value =>
      decide (f.1.param.stubName = p.stubName)) ∘ fun q => (⟨stubType pfx q.node, q⟩, arg q))
      = some q := by
    rw [← Option.isSome_iff_exists, List.find?_isSome]
    exact ⟨p, hp, by simp⟩
  obtain ⟨q, hq⟩ := hsome
  have hname : q.stubName = p.stubName := by simpa using List.find?_some hq
  obtain rfl : q = p :=
    eq_of_name_eq hnodup (List.mem_of_find?_eq_some hq) hp (List.append_cancel_left hname)
  rw [hq]
  rfl

/-- A scalar argument is passed as a word. -/
theorem exists_wordOf (abi : ArchAbi) (hnodup : (node.parameters.map ParameterNode.name).Nodup)
    (htyped : Typed M pfx node arg) {p : Param} (hp : p ∈ node.params)
    (hscalar : M.IsScalar (getParameterCType pfx p.node)) :
    ∃ w, toWord (arg p) = some w ∧
      (clientStub abi pfx node).wordOf (node.params.map arg) p = some w := by
  obtain ⟨k, hk, hscalar⟩ := hscalar
  obtain ⟨w, hw⟩ := exists_toWord hscalar (htyped p hp k hk)
  refine ⟨w, hw, ?_⟩
  rw [ClientStub.wordOf, valueOf_clientStub hnodup hp]
  exact hw

/-- The words of a call with blocks: what is passed for the input, for the output, and the values in
the slots behind them. -/
structure BlockWords (F : Frame M (clientStub abi pfx node)) (arg : Param → Value)
    (inWord outWord : Value) (peel : List Value) : Prop where
  inWord_eq : ClientStub.inWord F (node.params.map arg) (inArgumentOf (clientPartition abi node))
    = some inWord
  isRegister_in : IsRegister inWord
  outWord_eq : ClientStub.outWord F (node.params.map arg)
    (outArgumentOf (clientPartition abi node)) = some outWord
  isRegister_out : IsRegister outWord
  length_peel : peel.length = abi.peelSlotCount
  isRegister_peel : ∀ w ∈ peel, IsRegister w
  peel_eq : ∀ p ∈ (clientPartition abi node).peeledParams,
    peel[(clientPartition abi node).peeledParams.idxOf p]? = toWord (arg p)

theorem exists_inWord (hbuilds : Builds M abi pfx infos node) (htyped : Typed M pfx node arg)
    (F : Frame M (clientStub abi pfx node)) :
    ∃ w, ClientStub.inWord F (node.params.map arg) (inArgumentOf (clientPartition abi node))
      = some w ∧ IsRegister w := by
  have hspec := clientPartition_spec abi node
  unfold inArgumentOf
  rcases hparams : (clientPartition abi node).inParams with _ | ⟨q, _ | ⟨r, rest⟩⟩
  · exact ⟨_, rfl, _, rfl⟩
  · have hq : q ∈ node.params :=
      (hspec.mem_iff q).2 (.inl (by rw [hparams]; exact List.mem_cons_self))
    simp only
    split_ifs with hptr
    · obtain ⟨w, hw, hwq⟩ := exists_wordOf abi hbuilds.nodup htyped hq
        (hbuilds.isScalar_of_pointer hq (.inr hptr))
      exact ⟨w, hwq, isRegister_toWord hw⟩
    · exact ⟨_, rfl, _, rfl⟩
  · exact ⟨_, rfl, _, rfl⟩

theorem exists_outWord (hbuilds : Builds M abi pfx infos node) (htyped : Typed M pfx node arg)
    (F : Frame M (clientStub abi pfx node)) :
    ∃ w, ClientStub.outWord F (node.params.map arg) (outArgumentOf (clientPartition abi node))
      = some w ∧ IsRegister w := by
  have hspec := clientPartition_spec abi node
  unfold outArgumentOf
  rcases hparams : (clientPartition abi node).outParams with _ | ⟨q, _ | ⟨r, rest⟩⟩
  · exact ⟨_, rfl, _, rfl⟩
  · have hq : q ∈ node.params :=
      (hspec.mem_iff q).2 (.inr (.inl (by rw [hparams]; exact List.mem_cons_self)))
    simp only
    split_ifs with hptr
    · obtain ⟨w, hw, hwq⟩ := exists_wordOf abi hbuilds.nodup htyped hq
        (hbuilds.isScalar_of_pointer hq (.inr hptr))
      exact ⟨w, hwq, isRegister_toWord hw⟩
    · exact ⟨_, rfl, _, rfl⟩
  · exact ⟨_, rfl, _, rfl⟩

/-- A slot that is not used holds a zero. -/
theorem exists_peelWord (hbuilds : Builds M abi pfx infos node) (htyped : Typed M pfx node arg)
    {o : Option Param}
    (ho : o ∈ peelOf abi (clientPartition abi node)) :
    ∃ w, (clientStub abi pfx node).peelWord (node.params.map arg) o = some w ∧ IsRegister w ∧
      ∀ p, o = some p → toWord (arg p) = some w := by
  cases o with
  | none => exact ⟨_, rfl, ⟨_, rfl⟩, by rintro p ⟨⟩⟩
  | some p =>
    have hpeeled := mem_peelOf_iff.1 ho
    have hp : p ∈ node.params := ((clientPartition_spec abi node).mem_iff p).2
      (.inr (.inr hpeeled))
    obtain ⟨w, hw, hwp⟩ := exists_wordOf abi hbuilds.nodup htyped hp
      (hbuilds.words p hp (.inl (.inr hpeeled)))
    exact ⟨w, hwp, isRegister_toWord hw, fun q hq => by rwa [← Option.some.inj hq]⟩

/-- A peeled parameter has the slot of its place among the peeled ones. -/
theorem getElem?_peelOf {p : Param} (hp : p ∈ (clientPartition abi node).peeledParams) :
    (peelOf abi (clientPartition abi node))[(clientPartition abi node).peeledParams.idxOf p]?
      = some (some p) := by
  have hlt := List.idxOf_lt_length_iff.2 hp
  have hslots := (clientPartition_spec abi node).length_peeledParams_le
  rw [peelOf, List.getElem?_map, List.getElem?_range (by omega), Option.map_some,
    List.getElem?_eq_getElem hlt, List.getElem_idxOf]

theorem call_clientStub (hreg : (clientPartition abi node).canUseCallReg = false) :
    (clientStub abi pfx node).call = .callN (inArgumentOf (clientPartition abi node))
      (outArgumentOf (clientPartition abi node)) (peelOf abi (clientPartition abi node)) := by
  rw [clientStub_of_block hreg]

theorem passed_callN (hbuilds : Builds M abi pfx infos node) (htyped : Typed M pfx node arg)
    (hreg : (clientPartition abi node).canUseCallReg = false)
    (F : Frame M (clientStub abi pfx node)) :
    ∃ inWord outWord peel, ClientStub.passed F (node.params.map arg)
      = some (inWord :: outWord :: peel) ∧ BlockWords F arg inWord outWord peel := by
  obtain ⟨inWord, hinWord, hinIs⟩ := exists_inWord hbuilds htyped F
  obtain ⟨outWord, houtWord, houtIs⟩ := exists_outWord hbuilds htyped F
  -- one word for each slot behind the two pointers
  have hslot (o : Option Param) (ho : o ∈ peelOf abi (clientPartition abi node)) :=
    exists_peelWord hbuilds htyped ho
  choose! slot hpeelWord hregister hslotWord using hslot
  refine ⟨inWord, outWord, (peelOf abi (clientPartition abi node)).map slot, ?_, hinWord, hinIs,
    houtWord, houtIs, ?_, ?_, fun p hp => ?_⟩
  · rw [ClientStub.passed, call_clientStub hreg]
    simp only [hinWord, houtWord, mapM_eq_some_map hpeelWord]
    rfl
  · rw [List.length_map, peelOf, List.length_map, List.length_range]
  · rw [List.forall_mem_map]
    exact hregister
  · have hget := getElem?_peelOf hp
    rw [List.getElem?_map, hget, Option.map_some, hslotWord _ (List.mem_of_getElem? hget) p rfl]

/-! ### The dispatcher -/

/-- The pointer that is passed to the handler for an output parameter. -/
def outAddress (M : Machine) (pfx : Bytes) (s : Partition) (outPointer : Address) (p : Param) :
    Address :=
  if s.outParams.length = 1 then outPointer else M.member outPointer (outFields pfx s) p

/-- What a case with blocks makes of the words for a parameter of kind `k`. -/
structure Received (M : Machine) (pfx : Bytes) (s : Partition) (m : Memory)
    (inPointer outPointer : Address) (peel : List Value) (p : Param) (k : Kind) (v : Value) :
    Prop where
  output : p.node.direction = .OUT → v = .pointer (outAddress M pfx s outPointer p)
  peeled : p ∈ s.peeledParams → ∃ w, peel[s.peeledParams.idxOf p]? = some w ∧ cast k w = some v
  pointer : s.inParams = [p] → p.node.type.isPtr = true → v = .pointer inPointer
  pointee : s.inParams = [p] → p.node.type.isPtr = false → v = m.load inPointer k
  member : p ∈ s.inParams → 1 < s.inParams.length →
    v = m.load (M.member inPointer (inFields pfx s) p) k

theorem find_inFields (pfx : Bytes) (hnodup : (node.parameters.map ParameterNode.name).Nodup)
    {s : Partition} (hs : ∀ p ∈ s.inParams, p ∈ node.params) {p : Param} (hp : p ∈ s.inParams) :
    (inFields pfx s).find? (fun f => f.param.node.name = p.node.name)
      = some ⟨getParameterCType pfx p.node, p⟩ := by
  have hsome : ∃ f, (inFields pfx s).find? (fun f => f.param.node.name = p.node.name) = some f := by
    rw [← Option.isSome_iff_exists, List.find?_isSome]
    exact ⟨_, List.mem_map_of_mem hp, by simp⟩
  obtain ⟨f, hf⟩ := hsome
  have hname : f.param.node.name = p.node.name := by simpa using List.find?_some hf
  obtain ⟨q, hq, rfl⟩ := List.mem_map.1 (List.mem_of_find?_eq_some hf)
  obtain rfl : q = p := eq_of_name_eq hnodup (hs q hq) (hs p hp) hname
  exact hf

/-! ### What a case receives

A parameter is in one of the three groups, so one field of `Received` says what its variable is. -/

section Received

variable {isScalar : ParameterNode → Bool} {fits : Bool} {slots : Nat} {s : Partition} {m : Memory}
  {i o : Address} {peel : List Value} {p : Param} {k : Kind}

theorem Received.of_output (hspec : Partition.Spec isScalar fits slots node.params s)
    (hdir : p.node.direction = .OUT) :
    Received M pfx s m i o peel p k (.pointer (outAddress M pfx s o p)) := by
  obtain ⟨hnin, hnpeel⟩ := hspec.notMem_of_direction_out hdir
  have hsingle : s.inParams ≠ [p] := fun h => hnin (h ▸ List.mem_cons_self)
  exact ⟨fun _ => rfl, fun h => absurd h hnpeel, fun h => absurd h hsingle,
    fun h => absurd h hsingle, fun h => absurd h hnin⟩

theorem Received.of_peeled (hspec : Partition.Spec isScalar fits slots node.params s)
    (hdir : p.node.direction ≠ .OUT) (hp : p ∈ s.peeledParams) {w v : Value}
    (hw : peel[s.peeledParams.idxOf p]? = some w) (hv : cast k w = some v) :
    Received M pfx s m i o peel p k v := by
  have hnin : p ∉ s.inParams := fun h => (hspec.direction_of_mem_in h).2 hp
  have hsingle : s.inParams ≠ [p] := fun h => hnin (h ▸ List.mem_cons_self)
  exact ⟨fun h => absurd h hdir, fun _ => ⟨w, hw, hv⟩, fun h => absurd h hsingle,
    fun h => absurd h hsingle, fun h => absurd h hnin⟩

theorem Received.of_pointer (hspec : Partition.Spec isScalar fits slots node.params s)
    (hparams : s.inParams = [p]) (hptr : p.node.type.isPtr = true) :
    Received M pfx s m i o peel p k (.pointer i) := by
  obtain ⟨hdir, hnpeel⟩ := hspec.direction_of_mem_in (hparams ▸ List.mem_singleton_self p)
  refine ⟨fun h => absurd h hdir, fun h => absurd h hnpeel, fun _ _ => rfl,
    fun _ h => absurd (hptr.symm.trans h) (by decide), fun _ h => ?_⟩
  rw [hparams] at h
  exact absurd h (Nat.lt_irrefl 1)

theorem Received.of_pointee (hspec : Partition.Spec isScalar fits slots node.params s)
    (hparams : s.inParams = [p]) (hptr : p.node.type.isPtr = false) :
    Received M pfx s m i o peel p k (m.load i k) := by
  obtain ⟨hdir, hnpeel⟩ := hspec.direction_of_mem_in (hparams ▸ List.mem_singleton_self p)
  refine ⟨fun h => absurd h hdir, fun h => absurd h hnpeel,
    fun _ h => absurd (hptr.symm.trans h) (by decide), fun _ _ => rfl, fun _ h => ?_⟩
  rw [hparams] at h
  exact absurd h (Nat.lt_irrefl 1)

theorem Received.of_member (hspec : Partition.Spec isScalar fits slots node.params s)
    (hp : p ∈ s.inParams) (hlen : 1 < s.inParams.length) :
    Received M pfx s m i o peel p k
      (m.load (M.member i (inFields pfx s) p) k) := by
  obtain ⟨hdir, hnpeel⟩ := hspec.direction_of_mem_in hp
  have hsingle : s.inParams ≠ [p] := by
    intro h
    rw [h] at hlen
    exact absurd hlen (Nat.lt_irrefl 1)
  exact ⟨fun h => absurd h hdir, fun h => absurd h hnpeel, fun h => absurd h hsingle,
    fun h => absurd h hsingle, fun _ _ => rfl⟩

end Received

/-! ### The expressions of a case with blocks -/

section Expressions

variable {words : List Value} {m : Memory} {p : Param} {k : Kind}

theorem localValue_localOf (hk : M.kindOf (getParameterCType pfx p.node) = some k) {u v : Value}
    (hu : (dispatchCase abi pfx infos node).evaluate M words m
      (argExpression pfx (serverPartition abi infos node) p) = some u) (hv : cast k u = some v) :
    (dispatchCase abi pfx infos node).localValue M words m
      (localOf pfx (serverPartition abi infos node) p) = some v := by
  rw [DispatchCase.localValue, localOf, hu, hk]
  exact hv

theorem evaluate_outField (hreg : (serverPartition abi infos node).canUseCallReg = false)
    (hlen : 1 < (serverPartition abi infos node).outParams.length) {o : Address}
    (ho : DispatchCase.pointerArg words 1 = some o) :
    (dispatchCase abi pfx infos node).evaluate M words m (.outField p)
      = some (.pointer (M.member o (outFields pfx (serverPartition abi infos node)) p)) := by
  have hblock : (dispatchCase abi pfx infos node).outBlock
      = some (outFields pfx (serverPartition abi infos node)) := by
    rw [outBlock_dispatchCase, hreg, if_pos (by simpa using hlen)]
  rw [DispatchCase.evaluate, hblock, ho]
  rfl

theorem evaluate_inField (hnodup : (node.parameters.map ParameterNode.name).Nodup)
    (hreg : (serverPartition abi infos node).canUseCallReg = false)
    (hp : p ∈ (serverPartition abi infos node).inParams)
    (hlen : 1 < (serverPartition abi infos node).inParams.length) {i : Address}
    (hi : DispatchCase.pointerArg words 0 = some i)
    (hk : M.kindOf (getParameterCType pfx p.node) = some k) :
    (dispatchCase abi pfx infos node).evaluate M words m (.inField p)
      = some (m.load (M.member i (inFields pfx (serverPartition abi infos node)) p) k) := by
  have hspec := serverPartition_spec abi infos node
  have hfind := find_inFields pfx hnodup (fun q hq => (hspec.mem_iff q).2 (.inl hq)) hp
  have hblock : (dispatchCase abi pfx infos node).inBlock
      = some (inFields pfx (serverPartition abi infos node)) := by
    rw [inBlock_dispatchCase, hreg, if_pos (by simpa using hlen)]
  rw [DispatchCase.evaluate, hblock, hi]
  show ((inFields pfx (serverPartition abi infos node)).find? _).bind _ = _
  rw [hfind]
  show (M.kindOf (getParameterCType pfx p.node)).bind _ = _
  rw [hk]
  rfl

/-- A word that is passed as an integer is cast to the pointer it stands for. -/
theorem evaluate_pointerSlot {w : Value} (j : Nat) {a : Address} (hw : words[j]? = some w)
    (hregister : IsRegister w) (ha : toPointer w = some a) :
    ∃ u, (dispatchCase abi pfx infos node).evaluate M words m (.pointerSlot j) = some u ∧
      cast .pointer u = some (.pointer a) := by
  obtain ⟨b, u, hb, hu, -, hcast⟩ := hregister.exists_pointer
  obtain rfl : b = a := Option.some.inj (hb.symm.trans ha)
  refine ⟨u, ?_, hcast⟩
  rw [DispatchCase.evaluate, hw]
  exact hu

end Expressions

section LocalValue

variable {inWord outWord : Value} {peel : List Value} {inPointer outPointer : Address} {p : Param}
  {k : Kind}

theorem exists_localValue_output (hreg : (serverPartition abi infos node).canUseCallReg = false)
    (hout : IsRegister outWord) (houtPointer : toPointer outWord = some outPointer) (m : Memory)
    (hp : p ∈ node.params) (hdir : p.node.direction = .OUT)
    (hk : M.kindOf (getParameterCType pfx p.node) = some k) :
    ∃ v, (dispatchCase abi pfx infos node).localValue M (inWord :: outWord :: peel) m
        (localOf pfx (serverPartition abi infos node) p) = some v ∧
      Received M pfx (serverPartition abi infos node) m inPointer outPointer peel p k v := by
  have hspec := serverPartition_spec abi infos node
  have hexpr := argExpression_of_block pfx hreg p
  obtain rfl : k = .pointer := kind_eq_pointer (.inl (by rw [hdir]; decide)) hk
  have hmem : p ∈ (serverPartition abi infos node).outParams := by
    rw [hspec.outParams]
    exact List.mem_filter.2 ⟨hp, by simpa using hdir⟩
  rw [if_pos hdir] at hexpr
  refine ⟨_, ?_, .of_output hspec hdir⟩
  by_cases hlen : (serverPartition abi infos node).outParams.length = 1
  · -- the word is the pointer
    rw [if_pos hlen] at hexpr
    have hword : (inWord :: outWord :: peel)[1]? = some outWord := rfl
    obtain ⟨u, hu, hcast⟩ := evaluate_pointerSlot 1 hword hout houtPointer
    rw [outAddress, if_pos hlen]
    exact localValue_localOf hk (by rw [hexpr]; exact hu) hcast
  · -- the pointer is to a member of the block
    have hpos := List.length_pos_of_mem hmem
    have hgt : 1 < (serverPartition abi infos node).outParams.length := by omega
    rw [if_neg hlen] at hexpr
    rw [outAddress, if_neg hlen]
    have hself (a : Address) : cast .pointer (.pointer a) = some (.pointer a) := rfl
    refine localValue_localOf hk ?_ (hself _)
    rw [hexpr]
    exact evaluate_outField hreg hgt houtPointer

theorem exists_localValue_peeled (hreg : (serverPartition abi infos node).canUseCallReg = false)
    (hpeel : ∀ w ∈ peel, IsRegister w) (hlength : peel.length = abi.peelSlotCount) (m : Memory)
    (hdir : p.node.direction ≠ .OUT) (hp : p ∈ (serverPartition abi infos node).peeledParams)
    (hk : M.kindOf (getParameterCType pfx p.node) = some k) (hscalar : k.IsScalar) :
    ∃ v, (dispatchCase abi pfx infos node).localValue M (inWord :: outWord :: peel) m
        (localOf pfx (serverPartition abi infos node) p) = some v ∧
      Received M pfx (serverPartition abi infos node) m inPointer outPointer peel p k v := by
  have hspec := serverPartition_spec abi infos node
  have hexpr := argExpression_of_block pfx hreg p
  rw [if_neg hdir, if_pos hp] at hexpr
  have hlt := List.idxOf_lt_length_iff.2 hp
  have hslots := hspec.length_peeledParams_le
  obtain ⟨w, hw⟩ : ∃ w, peel[(serverPartition abi infos node).peeledParams.idxOf p]? = some w :=
    ⟨_, List.getElem?_eq_getElem (by omega)⟩
  obtain ⟨v, hv⟩ := (hpeel w (List.mem_of_getElem? hw)).exists_cast hscalar
  refine ⟨v, localValue_localOf hk ?_ hv, .of_peeled hspec hdir hp hw hv⟩
  rw [hexpr, DispatchCase.evaluate, Nat.add_comm]
  exact hw

/-- The only input without a slot of its own. -/
theorem exists_localValue_only (hreg : (serverPartition abi infos node).canUseCallReg = false)
    (hin : IsRegister inWord) (hinPointer : toPointer inWord = some inPointer) (m : Memory)
    (hparams : (serverPartition abi infos node).inParams = [p])
    (hk : M.kindOf (getParameterCType pfx p.node) = some k) :
    ∃ v, (dispatchCase abi pfx infos node).localValue M (inWord :: outWord :: peel) m
        (localOf pfx (serverPartition abi infos node) p) = some v ∧
      Received M pfx (serverPartition abi infos node) m inPointer outPointer peel p k v := by
  have hspec := serverPartition_spec abi infos node
  have hexpr := argExpression_of_block pfx hreg p
  obtain ⟨hdir, hnpeel⟩ := hspec.direction_of_mem_in (hparams ▸ List.mem_singleton_self p)
  rw [if_neg hdir, if_neg hnpeel, hparams] at hexpr
  by_cases hptr : p.node.type.isPtr = true
  · -- the word is the pointer of the caller
    obtain rfl : k = .pointer := kind_eq_pointer (.inr hptr) hk
    simp only [hptr, if_true] at hexpr
    have hword : (inWord :: outWord :: peel)[0]? = some inWord := rfl
    obtain ⟨u, hu, hcast⟩ := evaluate_pointerSlot 0 hword hin hinPointer
    exact ⟨_, localValue_localOf hk (by rw [hexpr]; exact hu) hcast,
      .of_pointer hspec hparams hptr⟩
  · -- the word points to the value
    have hptr := Bool.eq_false_iff.2 hptr
    simp only [hptr, Bool.false_eq_true, if_false] at hexpr
    have hself := cast_self (m.hasKind_load inPointer k)
    have hinArg : DispatchCase.pointerArg (inWord :: outWord :: peel) 0 = some inPointer :=
      hinPointer
    refine ⟨_, localValue_localOf hk ?_ hself, .of_pointee hspec hparams hptr⟩
    rw [hexpr]
    simp only [DispatchCase.evaluate, hinArg, hk]
    rfl

theorem exists_localValue_member (hnodup : (node.parameters.map ParameterNode.name).Nodup)
    (hreg : (serverPartition abi infos node).canUseCallReg = false)
    (hinPointer : toPointer inWord = some inPointer) (m : Memory)
    (hp : p ∈ (serverPartition abi infos node).inParams)
    (hlen : 1 < (serverPartition abi infos node).inParams.length)
    (hk : M.kindOf (getParameterCType pfx p.node) = some k) :
    ∃ v, (dispatchCase abi pfx infos node).localValue M (inWord :: outWord :: peel) m
        (localOf pfx (serverPartition abi infos node) p) = some v ∧
      Received M pfx (serverPartition abi infos node) m inPointer outPointer peel p k v := by
  have hspec := serverPartition_spec abi infos node
  have hexpr := argExpression_of_block pfx hreg p
  obtain ⟨hdir, hnpeel⟩ := hspec.direction_of_mem_in hp
  rw [if_neg hdir, if_neg hnpeel] at hexpr
  have hfield : argExpression pfx (serverPartition abi infos node) p = .inField p := by
    rw [hexpr]
    rcases hparams : (serverPartition abi infos node).inParams with _ | ⟨q, _ | ⟨r, rest⟩⟩
    · rfl
    · rw [hparams] at hlen
      exact absurd hlen (Nat.lt_irrefl 1)
    · rfl
  have hself := cast_self (m.hasKind_load
    (M.member inPointer (inFields pfx (serverPartition abi infos node)) p) k)
  refine ⟨_, localValue_localOf hk ?_ hself, .of_member hspec hp hlen⟩
  rw [hfield]
  exact evaluate_inField hnodup hreg hp hlen hinPointer hk

/-- Every local variable of a case with blocks gets a value. -/
theorem exists_localValue (hbuilds : Builds M abi pfx infos node)
    (hreg : (serverPartition abi infos node).canUseCallReg = false) (hin : IsRegister inWord)
    (hinPointer : toPointer inWord = some inPointer) (hout : IsRegister outWord)
    (houtPointer : toPointer outWord = some outPointer) (hpeel : ∀ w ∈ peel, IsRegister w)
    (hlength : peel.length = abi.peelSlotCount) (m : Memory) (hp : p ∈ node.params)
    (hk : M.kindOf (getParameterCType pfx p.node) = some k) :
    ∃ v, (dispatchCase abi pfx infos node).localValue M (inWord :: outWord :: peel) m
        (localOf pfx (serverPartition abi infos node) p) = some v ∧
      Received M pfx (serverPartition abi infos node) m inPointer outPointer peel p k v := by
  have hspec := serverPartition_spec abi infos node
  rcases (hspec.mem_iff p).1 hp with hmem | hmem | hmem
  · by_cases hlen : 1 < (serverPartition abi infos node).inParams.length
    · exact exists_localValue_member hbuilds.nodup hreg hinPointer m hmem hlen hk
    · have hpos := List.length_pos_of_mem hmem
      obtain ⟨q, hparams⟩ := List.length_eq_one_iff.1
        (show (serverPartition abi infos node).inParams.length = 1 by omega)
      rw [hparams] at hmem
      obtain rfl := List.mem_singleton.1 hmem
      exact exists_localValue_only hreg hin hinPointer m hparams hk
  · exact exists_localValue_output hreg hout houtPointer m hp (hspec.direction_of_mem_out hmem) hk
  · have hdir : p.node.direction ≠ .OUT := fun h => (hspec.notMem_of_direction_out h).2 hmem
    obtain ⟨k', hk', hscalar⟩ := hbuilds.words p hp (.inr (.inr hmem))
    obtain rfl : k' = k := Option.some.inj (hk'.symm.trans hk)
    exact exists_localValue_peeled hreg hpeel hlength m hdir hmem hk hscalar

end LocalValue

/-- The local variables of a case with blocks. -/
theorem exists_locals (hbuilds : Builds M abi pfx infos node)
    (hreg : (serverPartition abi infos node).canUseCallReg = false) {inWord outWord : Value}
    {peel : List Value} {inPointer outPointer : Address} (hin : IsRegister inWord)
    (hinPointer : toPointer inWord = some inPointer) (hout : IsRegister outWord)
    (houtPointer : toPointer outWord = some outPointer) (hpeel : ∀ w ∈ peel, IsRegister w)
    (hlength : peel.length = abi.peelSlotCount) (m : Memory) :
    ∃ received : Param → Value, (dispatchCase abi pfx infos node).locals.mapM
        ((dispatchCase abi pfx infos node).localValue M (inWord :: outWord :: peel) m)
        = some (node.params.map received) ∧
      ∀ p ∈ node.params, ∀ k, M.kindOf (getParameterCType pfx p.node) = some k →
        Received M pfx (serverPartition abi infos node) m inPointer outPointer peel p k
          (received p) := by
  have hall : ∀ p ∈ node.params, ∃ v, (dispatchCase abi pfx infos node).localValue M
      (inWord :: outWord :: peel) m (localOf pfx (serverPartition abi infos node) p) = some v ∧
      ∀ k, M.kindOf (getParameterCType pfx p.node) = some k →
        Received M pfx (serverPartition abi infos node) m inPointer outPointer peel p k v := by
    intro p hp
    obtain ⟨k, hk⟩ := hbuilds.exists_kind hp
    obtain ⟨v, hv, hreceived⟩ := exists_localValue hbuilds hreg hin hinPointer hout houtPointer
      hpeel hlength m hp hk
    refine ⟨v, hv, fun k' hk' => ?_⟩
    obtain rfl : k = k' := Option.some.inj (hk.symm.trans hk')
    exact hreceived
  choose! received hvalue hreceived using hall
  refine ⟨received, ?_, hreceived⟩
  have hlocals : (dispatchCase abi pfx infos node).locals
      = node.params.map (localOf pfx (serverPartition abi infos node)) := rfl
  rw [hlocals, List.mapM_map]
  exact mapM_eq_some_map hvalue

/-! ### Runs -/

/-- A case that calls its handler. -/
theorem run_dispatchCase {c : DispatchCase} (handler : Handler) {words vs : List Value} {m : Memory}
    (hcompiles : c.Compiles M) (hrejects : c.rejects words = false)
    (hvalues : c.locals.mapM (c.localValue M words m) = some vs) :
    c.run M handler words m = some ⟨(handler vs m).1, (handler vs m).2,
      [⟨c.callee, vs, m, (handler vs m).1, (handler vs m).2⟩]⟩ := by
  rw [DispatchCase.run, if_pos hcompiles, if_neg (by rw [hrejects]; decide), hvalues]
  rfl

/-- A case that returns before its handler. -/
theorem run_of_rejects {c : DispatchCase} (handler : Handler) {words : List Value} (m : Memory)
    (hcompiles : c.Compiles M) (hrejects : c.rejects words = true) :
    c.run M handler words m = some ⟨M.statusInvalidValue, m, []⟩ := by
  rw [DispatchCase.run, if_pos hcompiles, if_pos hrejects]

/-- A call whose query succeeds and whose words are passed. -/
theorem run_clientStub {stub : ClientStub} {F : Frame M stub} {query : Int}
    (transport : List Value → Memory → Option Outcome) {args words : List Value} (m : Memory)
    (hcompiles : stub.Compiles M) (hquery : M.checkSuccess query = true)
    (hwords : ClientStub.passed F args = some words) :
    ClientStub.run F query transport args m =
      (transport words (ClientStub.enter F args m)).bind fun outcome =>
        if M.checkSuccess outcome.status then
          (stub.copyOut.foldlM (ClientStub.copyBack F args) outcome.memory).map fun m =>
            { outcome with status := M.statusSuccess, memory := m }
        else some outcome := by
  rw [ClientStub.run]
  simp only [if_pos hcompiles, hquery, if_true, hwords]
  show (transport words _).bind _ = _
  refine congrArg (Option.bind _) (funext fun outcome => ?_)
  by_cases hstatus : M.checkSuccess outcome.status = true
  · rw [if_pos hstatus, if_pos hstatus]
    cases stub.copyOut.foldlM (ClientStub.copyBack F args) outcome.memory <;> rfl
  · rw [if_neg hstatus, if_neg hstatus]
    rfl

/-- A call whose query fails. -/
theorem run_of_query {stub : ClientStub} {F : Frame M stub} {query : Int}
    (transport : List Value → Memory → Option Outcome) (args : List Value) (m : Memory)
    (hcompiles : stub.Compiles M) (hquery : M.checkSuccess query = false) :
    ClientStub.run F query transport args m = some ⟨query, ClientStub.enter F args m, []⟩ := by
  rw [ClientStub.run]
  simp only [if_pos hcompiles, hquery, Bool.false_eq_true, if_false]

/-! ### The variables of the stub -/

/-- A variable has the bytes of its type. -/
theorem Machine.length_represent {type : Bytes} {v : Value}
    (h : ∀ k, M.kindOf type = some k → HasKind k v) :
    (M.represent type (some v)).length = M.sizeOf type := by
  unfold represent sizeOf
  cases hk : M.kindOf type with
  | none => rfl
  | some k => exact CValue.length_represent (h k hk)

theorem inMembers_clientStub (pfx : Bytes)
    (hreg : (clientPartition abi node).canUseCallReg = false)
    (hlen : 1 < (clientPartition abi node).inParams.length) :
    (clientStub abi pfx node).inMembers = inFields pfx (clientPartition abi node) := by
  rw [clientStub_of_block hreg, ClientStub.inMembers]
  show (inBlockOf pfx (clientPartition abi node)).getD [] = _
  rw [inBlockOf, if_pos hlen]
  rfl

/-- The members of `in` belong to parameters. -/
theorem exists_of_mem_inMembers {f : BlockField} (h : f ∈ (clientStub abi pfx node).inMembers) :
    ∃ p ∈ node.params, f = ⟨getParameterCType pfx p.node, p⟩ := by
  have hspec := clientPartition_spec abi node
  by_cases hreg : (clientPartition abi node).canUseCallReg = true
  · rw [clientStub_of_callReg hreg] at h
    cases h
  · by_cases hlen : 1 < (clientPartition abi node).inParams.length
    · rw [inMembers_clientStub pfx (Bool.eq_false_iff.2 hreg) hlen] at h
      obtain ⟨p, hp, rfl⟩ := List.mem_map.1 h
      exact ⟨p, (hspec.mem_iff p).2 (.inl hp), rfl⟩
    · rw [clientStub_of_block (Bool.eq_false_iff.2 hreg), ClientStub.inMembers] at h
      have hnone : inBlockOf pfx (clientPartition abi node) = none := if_neg hlen
      rw [hnone] at h
      cases h

/-- The `in` block as it is initialized. -/
def inCells (F : Frame M (clientStub abi pfx node)) (arg : Param → Value) :
    List (Address × List UInt8) :=
  (clientStub abi pfx node).inMembers.map fun f =>
    (M.member F.inBlock (clientStub abi pfx node).inMembers f.param,
      M.represent f.type ((clientStub abi pfx node).valueOf (node.params.map arg) f.param))

/-- The bytes of a member of `in`. -/
theorem length_inCell (hnodup : (node.parameters.map ParameterNode.name).Nodup)
    (htyped : Typed M pfx node arg) {f : BlockField}
    (h : f ∈ (clientStub abi pfx node).inMembers) :
    (M.represent f.type
      ((clientStub abi pfx node).valueOf (node.params.map arg) f.param)).length
      = M.sizeOf f.type := by
  obtain ⟨p, hp, rfl⟩ := exists_of_mem_inMembers h
  rw [valueOf_clientStub hnodup hp]
  exact M.length_represent (htyped p hp)

/-- The only input, where its address is passed. -/
theorem inParams_of_addressOf {p : Param} {outArg : OutArgument} {peel : List (Option Param)}
    (hcall : (clientStub abi pfx node).call = .callN (.addressOf p) outArg peel) :
    p ∈ node.params ∧ (clientPartition abi node).inParams = [p] := by
  have hspec := clientPartition_spec abi node
  by_cases hreg : (clientPartition abi node).canUseCallReg = true
  · rw [clientStub_of_callReg hreg] at hcall
    cases hcall
  · rw [call_clientStub (Bool.eq_false_iff.2 hreg)] at hcall
    have hargument : inArgumentOf (clientPartition abi node) = .addressOf p :=
      (StubCall.callN.inj hcall).1
    unfold inArgumentOf at hargument
    rcases hparams : (clientPartition abi node).inParams with _ | ⟨q, _ | ⟨r, rest⟩⟩
    · rw [hparams] at hargument
      cases hargument
    · rw [hparams] at hargument
      simp only at hargument
      split_ifs at hargument
      obtain rfl := InArgument.addressOf.inj hargument
      exact ⟨(hspec.mem_iff q).2 (.inl (hparams ▸ List.mem_cons_self)), rfl⟩
    · rw [hparams] at hargument
      cases hargument

/-- Until the call, only local variables are written. -/
theorem enter_of_not_holds (hnodup : (node.parameters.map ParameterNode.name).Nodup)
    (htyped : Typed M pfx node arg) {F : Frame M (clientStub abi pfx node)} {b : Address}
    (hb : ¬F.Holds b) (m : Memory) : ClientStub.enter F (node.params.map arg) m b = m b := by
  have hblock : m.storeAll (inCells F arg) b = m b := by
    refine Memory.storeAll_of_not_within fun cell hcell hwithin => hb ?_
    obtain ⟨f, hf, rfl⟩ := List.mem_map.1 hcell
    refine ⟨_, List.mem_append_right _ (List.mem_map_of_mem hf), ?_⟩
    rw [← length_inCell hnodup htyped hf]
    exact hwithin
  rw [ClientStub.enter]
  rcases hcall : (clientStub abi pfx node).call with ps | ⟨_ | p | p | _, outArg, peel⟩
  · exact hblock
  · exact hblock
  · exact hblock
  · -- the variable whose address is passed
    refine (Memory.storeBytes_of_not_within fun hwithin => hb ?_).trans hblock
    have hp := (inParams_of_addressOf hcall).1
    have hobject : (F.argument, M.sizeOf ((clientStub abi pfx node).typeOf p)) ∈ F.objects := by
      rw [Frame.objects, ClientStub.objects, hcall]
      exact List.mem_append_left _ (List.mem_append_left _ (List.mem_singleton_self _))
    refine ⟨_, hobject, ?_⟩
    rw [valueOf_clientStub hnodup hp, typeOf_clientStub hp, M.length_represent (htyped p hp)]
      at hwithin
    rw [typeOf_clientStub hp]
    exact hwithin
  · exact hblock

/-! ### Copies of the output -/

/-- The bytes of the output of a parameter. -/
def outSize (M : Machine) (pfx : Bytes) (p : Param) : Nat :=
  M.sizeOf (toCType pfx p.node.type)

/-- The byte belongs to what the caller passes for the output of a parameter. -/
def InOutput (M : Machine) (pfx : Bytes) (arg : Param → Value) (p : Param) (b : Address) : Prop :=
  ∃ a, arg p = .pointer a ∧ a ≠ 0 ∧ Within a (outSize M pfx p) b

/-- How the output of a parameter is copied. -/
def copyOf (s : Partition) (p : Param) : CopyOut :=
  if s.outParams.length = 1 then .whole p else .field p

/-- What is copied behind a call: all output, unless it was stored where it belongs. -/
theorem copyOut_clientStub (hreg : (clientPartition abi node).canUseCallReg = false)
    (hpasses : ¬PassesThrough abi node) :
    (clientStub abi pfx node).copyOut
      = (clientPartition abi node).outParams.map (copyOf (clientPartition abi node)) := by
  rw [clientStub_of_block hreg]
  show copyOutOf _ = _
  unfold copyOutOf copyOf
  rcases hparams : (clientPartition abi node).outParams with _ | ⟨p, _ | ⟨q, rest⟩⟩
  · rfl
  · have hptr : ¬p.node.type.isPtr = true := fun hptr => hpasses ⟨p, hparams, hptr⟩
    simp [hptr]
  · simp

theorem outMembers_clientStub (pfx : Bytes)
    (hreg : (clientPartition abi node).canUseCallReg = false)
    (hlen : (clientPartition abi node).outParams.length ≠ 1) :
    (clientStub abi pfx node).outMembers = outFields pfx (clientPartition abi node) := by
  rw [clientStub_of_block hreg, ClientStub.outMembers]
  unfold outBufferOf outFields
  rcases hparams : (clientPartition abi node).outParams with _ | ⟨q, _ | ⟨r, rest⟩⟩
  · rfl
  · rw [hparams] at hlen
    exact absurd rfl hlen
  · rfl

theorem find_outFields (pfx : Bytes) (hnodup : (node.parameters.map ParameterNode.name).Nodup)
    {p : Param} (hp : p ∈ (clientPartition abi node).outParams) :
    (outFields pfx (clientPartition abi node)).find? (fun f => f.param.node.name = p.node.name)
      = some ⟨toCType pfx p.node.type, p⟩ := by
  have hsome : ∃ f, (outFields pfx (clientPartition abi node)).find?
      (fun f => f.param.node.name = p.node.name) = some f := by
    rw [← Option.isSome_iff_exists, List.find?_isSome]
    exact ⟨_, List.mem_map_of_mem hp, by simp⟩
  obtain ⟨f, hf⟩ := hsome
  have hname : f.param.node.name = p.node.name := by simpa using List.find?_some hf
  obtain ⟨q, hq, rfl⟩ := List.mem_map.1 (List.mem_of_find?_eq_some hf)
  obtain rfl : q = p :=
    eq_of_name_eq hnodup (mem_outParams_iff.1 hq).1 (mem_outParams_iff.1 hp).1 hname
  exact hf

/-- The variable that the stub keeps the output of a parameter in. -/
theorem outAddress_mem_objects (hreg : (clientPartition abi node).canUseCallReg = false)
    (hpasses : ¬PassesThrough abi node) (F : Frame M (clientStub abi pfx node)) {p : Param}
    (hp : p ∈ (clientPartition abi node).outParams) :
    (outAddress M pfx (clientPartition abi node) F.outBuffer p, outSize M pfx p) ∈ F.objects := by
  have hbuffer : (clientStub abi pfx node).outBuffer
      = outBufferOf pfx (clientPartition abi node) := by
    rw [clientStub_of_block hreg]
  refine List.mem_append_left _ (List.mem_append_right _ ?_)
  rw [hbuffer]
  unfold outBufferOf outAddress outFields
  rcases hparams : (clientPartition abi node).outParams with _ | ⟨q, _ | ⟨r, rest⟩⟩
  · rw [hparams] at hp
    cases hp
  · have hptr : ¬q.node.type.isPtr = true := fun hptr => hpasses ⟨q, hparams, hptr⟩
    rw [hparams] at hp
    obtain rfl := List.mem_singleton.1 hp
    simp [hptr, outSize]
  · rw [hparams] at hp
    have hlen : ¬(q :: r :: rest).length = 1 := by simp
    rw [if_neg hlen]
    simp only [List.map_map]
    exact List.mem_map.2 ⟨p, hp, rfl⟩

/-- Where the stub keeps the output of a parameter. -/
theorem copyBack_copyOf (hnodup : (node.parameters.map ParameterNode.name).Nodup)
    (hreg : (clientPartition abi node).canUseCallReg = false) (hpasses : ¬PassesThrough abi node)
    {F : Frame M (clientStub abi pfx node)} {p : Param}
    (hp : p ∈ (clientPartition abi node).outParams)
    {a : Address} (ha : arg p = .pointer a) (m : Memory) :
    ClientStub.copyBack F (node.params.map arg) m (copyOf (clientPartition abi node) p) =
      some (if a = 0 then m
        else m.storeBytes a
          (m.bytes (outAddress M pfx (clientPartition abi node) F.outBuffer p)
            (outSize M pfx p))) := by
  have hvalue : (clientStub abi pfx node).valueOf (node.params.map arg) p = some (.pointer a) := by
    rw [valueOf_clientStub hnodup (mem_outParams_iff.1 hp).1, ha]
  unfold copyOf outAddress
  by_cases hlen : (clientPartition abi node).outParams.length = 1
  · -- one variable, of the type of the parameter
    have hparams : (clientPartition abi node).outParams = [p] := by
      obtain ⟨q, hq⟩ := List.length_eq_one_iff.1 hlen
      rw [hq] at hp
      rw [hq, List.mem_singleton.1 hp]
    have hptr : ¬p.node.type.isPtr = true := fun hptr => hpasses ⟨p, hparams, hptr⟩
    have hbuffer : (clientStub abi pfx node).outBuffer = .single (toCType pfx p.node.type) := by
      rw [clientStub_of_block hreg]
      show outBufferOf pfx _ = _
      rw [outBufferOf, hparams]
      exact if_neg hptr
    rw [if_pos hlen, if_pos hlen, ClientStub.copyBack, ClientStub.copied]
    simp only [hvalue, hbuffer, outSize]
  · rw [if_neg hlen, if_neg hlen, ClientStub.copyBack, ClientStub.copied]
    simp only [hvalue, outMembers_clientStub pfx hreg hlen, find_outFields pfx hnodup hp, outSize]

/-- What the copies leave in a byte: the output of the last parameter whose location it belongs to,
or what was there. -/
theorem exists_copyOut (hnodup : (node.parameters.map ParameterNode.name).Nodup)
    (hreg : (clientPartition abi node).canUseCallReg = false) (hpasses : ¬PassesThrough abi node)
    {F : Frame M (clientStub abi pfx node)} (ps : List Param)
    (hps : ∀ p ∈ ps, p ∈ (clientPartition abi node).outParams)
    (hsorted : ps.Pairwise fun p q => p.index < q.index)
    (hpointer : ∀ p ∈ ps, ∃ a, arg p = .pointer a)
    (hapart : ∀ p ∈ ps, ∀ b, InOutput M pfx arg p b → ¬F.Holds b)
    (after m : Memory) (hm : ∀ b, F.Holds b → m b = after b) :
    ∃ m', (ps.map (copyOf (clientPartition abi node))).foldlM
        (ClientStub.copyBack F (node.params.map arg)) m = some m' ∧
      ∀ b, (∃ q ∈ ps, ∃ a, arg q = .pointer a ∧ a ≠ 0 ∧ Within a (outSize M pfx q) b ∧
          (∀ r ∈ ps, InOutput M pfx arg r b → r.index ≤ q.index) ∧
          m' b = after (outAddress M pfx (clientPartition abi node) F.outBuffer q + (b - a))) ∨
        ((∀ q ∈ ps, ¬InOutput M pfx arg q b) ∧ m' b = m b) := by
  -- copy by copy: the variables of the stub stay what the handler left there
  induction ps generalizing m with
  | nil => exact ⟨m, rfl, fun b => .inr ⟨fun _ h => absurd h List.not_mem_nil, rfl⟩⟩
  | cons p ps ih =>
    rw [List.forall_mem_cons] at hps hpointer hapart
    obtain ⟨hlt, hsorted⟩ := List.pairwise_cons.1 hsorted
    obtain ⟨a, ha⟩ := hpointer.1
    set src := outAddress M pfx (clientPartition abi node) F.outBuffer p with hsrc
    set m₁ : Memory := if a = 0 then m
      else m.storeBytes a (m.bytes src (outSize M pfx p)) with hm₁
    have hother : ∀ b, ¬InOutput M pfx arg p b → m₁ b = m b := by
      intro b hb
      rw [hm₁]
      split_ifs with hzero
      · rfl
      · refine Memory.storeBytes_of_not_within fun hwithin => hb ⟨a, ha, hzero, ?_⟩
        rwa [Memory.length_bytes] at hwithin
    have hcopied : ∀ b, a ≠ 0 → Within a (outSize M pfx p) b → m₁ b = after (src + (b - a)) := by
      intro b hzero hwithin
      have hbyte : src.byte (b - a).toNat = src + (b - a) := by
        rw [Address.byte, BitVec.ofNat_toNat, BitVec.setWidth_eq]
      have hstored : some (m₁ b) = some (m (src.byte (b - a).toNat)) := by
        rw [hm₁, if_neg hzero, ← Memory.getElem?_bytes m src hwithin]
        refine Memory.storeBytes_of_within ?_
        rwa [Memory.length_bytes]
      rw [Option.some.inj hstored, ← hbyte]
      refine hm _ ⟨_, outAddress_mem_objects hreg hpasses F hps.1, ?_⟩
      exact within_byte hwithin (M.sizeOf_le _)
    -- copying does not change what is still to be copied
    have hagree : ∀ b, F.Holds b → m₁ b = after b := by
      intro b hb
      rw [hother b fun h => hapart.1 b h hb]
      exact hm b hb
    obtain ⟨m', hfold, hleft⟩ := ih hps.2 hsorted hpointer.2 hapart.2 m₁ hagree
    refine ⟨m', ?_, fun b => ?_⟩
    · rw [List.map_cons, List.foldlM_cons, copyBack_copyOf hnodup hreg hpasses hps.1 ha]
      exact hfold
    · rcases hleft b with ⟨q, hq, c, hc, hne, hwithin, hlast, hval⟩ | ⟨hnone, hval⟩
      · refine .inl ⟨q, List.mem_cons_of_mem p hq, c, hc, hne, hwithin, ?_, hval⟩
        exact List.forall_mem_cons.2 ⟨fun _ => (hlt q hq).le, hlast⟩
      · by_cases hpb : InOutput M pfx arg p b
        · -- the last copy to this byte
          obtain ⟨c, hc, hne, hwithin⟩ := hpb
          obtain rfl : a = c := Value.pointer.inj (ha.symm.trans hc)
          refine .inl ⟨p, List.mem_cons_self, a, ha, hne, hwithin, ?_, ?_⟩
          · exact List.forall_mem_cons.2 ⟨fun _ => le_rfl, fun r hr h => absurd h (hnone r hr)⟩
          · rw [hval, hcopied b hne hwithin]
        · refine .inr ⟨List.forall_mem_cons.2 ⟨hpb, hnone⟩, ?_⟩
          rw [hval, hother b hpb]

end Calls

end Sidlc
