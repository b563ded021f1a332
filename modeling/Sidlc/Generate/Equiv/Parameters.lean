import Mathlib.Data.List.Induction
import Mathlib.Data.List.Nodup
import Sidlc.Generate.Parameters

/-!
# The three groups of parameters

`partition_spec` says what the loop over the parameters makes of them: the output, the first scalars
as far as there are slots for them, and everything else. Where two notions of a scalar agree on the
parameters in the slots, they split the parameters alike (`Partition.Spec.congr`).
-/

namespace Sidlc

theorem FunctionNode.length_params (node : FunctionNode) :
    node.params.length = node.parameters.length :=
  List.length_mapIdx

theorem FunctionNode.map_node_params (node : FunctionNode) :
    node.params.map Param.node = node.parameters := by
  apply List.ext_getElem?
  intro i
  rw [List.getElem?_map, params, List.getElem?_mapIdx, Option.map_map]
  exact Option.map_id'

theorem FunctionNode.node_mem_parameters (node : FunctionNode) {p : Param} (hp : p ∈ node.params) :
    p.node ∈ node.parameters := by
  rw [← node.map_node_params]
  exact List.mem_map_of_mem hp

theorem FunctionNode.getElem?_params (node : FunctionNode) (i : Nat) :
    node.params[i]? = node.parameters[i]?.map (Param.mk i) :=
  List.getElem?_mapIdx

/-- A parameter stands at its position. -/
theorem FunctionNode.getElem?_index {node : FunctionNode} {p : Param} (h : p ∈ node.params) :
    node.params[p.index]? = some p := by
  obtain ⟨i, hi⟩ := List.mem_iff_getElem?.1 h
  have hindex : p.index = i := by
    rw [node.getElem?_params] at hi
    obtain ⟨n, -, rfl⟩ := Option.map_eq_some_iff.1 hi
    rfl
  rw [hindex]
  exact hi

theorem FunctionNode.nodup_params (node : FunctionNode) : node.params.Nodup := by
  rw [List.nodup_iff_getElem?_ne_getElem?]
  intro i j hij hj heq
  rw [node.getElem?_params, node.getElem?_params] at heq
  have hnode : ∃ n, node.parameters[i]? = some n := by
    rw [node.length_params] at hj
    exact ⟨_, List.getElem?_eq_getElem (Nat.lt_trans hij hj)⟩
  obtain ⟨n, hn⟩ := hnode
  rw [hn] at heq
  obtain ⟨m, -, hm⟩ := Option.map_eq_some_iff.1 heq.symm
  exact absurd (congrArg Param.index hm) (by show j ≠ i; omega)

theorem FunctionNode.pairwise_params (node : FunctionNode) :
    node.params.Pairwise fun p q => p.index < q.index := by
  unfold params
  rw [List.pairwise_iff_getElem]
  intro i j hi hj hij
  rw [List.getElem_mapIdx, List.getElem_mapIdx]
  exact hij

namespace Partition

/-- Input that the loop takes for a scalar. -/
def IsInScalar (isScalar : ParameterNode → Bool) (p : Param) : Bool :=
  p.node.direction ≠ .OUT && isScalar p.node

/-- What the loop has found after the parameters `ps`. -/
structure Spec (isScalar : ParameterNode → Bool) (fits : Bool) (peelSlots : Nat) (ps : List Param)
    (s : Partition) : Prop where
  canUseCallReg : s.canUseCallReg = (fits && ps.all fun p => isScalar p.node)
  peeledParams : s.peeledParams = (ps.filter (IsInScalar isScalar)).take peelSlots
  inParams : s.inParams = ps.filter fun p => p.node.direction ≠ .OUT && !(s.peeledParams.contains p)
  outParams : s.outParams = ps.filter fun p => p.node.direction = .OUT

variable {isScalar : ParameterNode → Bool} {fits : Bool} {peelSlots : Nat} {ps : List Param}
  {s : Partition}

theorem Spec.add (h : Spec isScalar fits peelSlots ps s) {p : Param} (hp : p ∉ ps) :
    Spec isScalar fits peelSlots (ps ++ [p]) (s.add isScalar peelSlots p) := by
  have hpeeled : p ∉ s.peeledParams := by
    rw [h.peeledParams]
    exact fun hmem => hp (List.mem_of_mem_filter (List.mem_of_mem_take hmem))
  have hreg : (if isScalar p.node then s else { s with canUseCallReg := false })
      = { s with canUseCallReg := s.canUseCallReg && isScalar p.node } := by
    cases isScalar p.node <;> simp
  have hcall : (s.canUseCallReg && isScalar p.node)
      = (fits && (ps ++ [p]).all fun p => isScalar p.node) := by
    rw [h.canUseCallReg, List.all_append, List.all_cons, List.all_nil, Bool.and_true,
      Bool.and_assoc]
  have hlen : s.peeledParams.length = min peelSlots (ps.filter (IsInScalar isScalar)).length := by
    rw [h.peeledParams, List.length_take]
  unfold Partition.add
  simp only [hreg]
  by_cases hout : p.node.direction = .OUT
  · -- output goes to its own list, whatever it looks like
    rw [if_pos hout]
    have hno : IsInScalar isScalar p = false := by simp [IsInScalar, hout]
    refine ⟨hcall, ?_, ?_, ?_⟩
    · simp [h.peeledParams, hno]
    · simp [h.inParams, hout]
    · simp [h.outParams, hout]
  · rw [if_neg hout]
    by_cases htake : (isScalar p.node && decide (s.peeledParams.length < peelSlots)) = true
    · -- a scalar for which a slot is left
      rw [if_pos htake]
      obtain ⟨hscalar, hlt⟩ := Bool.and_eq_true_iff.1 htake
      have hlt := of_decide_eq_true hlt
      have hin : IsInScalar isScalar p = true := by simp [IsInScalar, hout, hscalar]
      have hall : (ps.filter (IsInScalar isScalar)).take peelSlots
          = ps.filter (IsInScalar isScalar) := List.take_of_length_le (by omega)
      refine ⟨hcall, ?_, ?_, ?_⟩
      · show s.peeledParams ++ [p] = _
        rw [h.peeledParams, hall, List.filter_append, List.filter_singleton, hin, Bool.cond_true,
          List.take_of_length_le]
        rw [List.length_append, List.length_singleton]
        omega
      · show s.inParams = _
        rw [List.filter_append, h.inParams]
        have hlast : ([p].filter fun q => decide (q.node.direction ≠ .OUT)
            && !((s.peeledParams ++ [p]).contains q)) = [] := by simp
        rw [hlast, List.append_nil]
        refine List.filter_congr fun q hq => ?_
        have hne : q ≠ p := fun heq => hp (heq ▸ hq)
        simp [List.contains_eq_mem, hne]
      · simp [h.outParams, hout]
    · rw [if_neg htake]
      refine ⟨hcall, ?_, ?_, ?_⟩
      · show s.peeledParams = _
        rw [h.peeledParams, List.filter_append]
        by_cases hscalar : isScalar p.node = true
        · -- the slots are full
          have hge : peelSlots ≤ (ps.filter (IsInScalar isScalar)).length := by
            rw [hscalar, Bool.true_and, decide_eq_true_eq] at htake
            omega
          rw [List.take_append_of_le_length hge]
        · have hno : IsInScalar isScalar p = false := by simp [IsInScalar, hscalar]
          simp [hno]
      · show s.inParams ++ [p] = _
        have hlast : ([p].filter fun q => decide (q.node.direction ≠ .OUT)
            && !(s.peeledParams.contains q)) = [p] := by
          simp [hout, List.contains_eq_mem, hpeeled]
        rw [List.filter_append, hlast, h.inParams]
      · simp [h.outParams, hout]

theorem Spec.foldl (h : Spec isScalar fits peelSlots [] s) (hps : ps.Nodup) :
    Spec isScalar fits peelSlots ps (ps.foldl (Partition.add isScalar peelSlots) s) := by
  induction ps using List.reverseRecOn with
  | nil => exact h
  | append_singleton ps p ih =>
    obtain ⟨hnodup, -, hdisjoint⟩ := List.nodup_append'.1 hps
    have hp : p ∉ ps := fun hmem => hdisjoint hmem (List.mem_singleton_self p)
    rw [List.foldl_append]
    exact (ih hnodup).add hp

end Partition

/-- What the partition of a function is. -/
theorem partition_spec (abi : ArchAbi) (isScalar : ParameterNode → Bool) (node : FunctionNode) :
    Partition.Spec isScalar (node.parameters.length ≤ abi.argSlotCount) abi.peelSlotCount
      node.params
      (partition abi isScalar node) := by
  refine Partition.Spec.foldl ⟨?_, ?_, rfl, rfl⟩ node.nodup_params
  · simp
  · simp

namespace Partition.Spec

variable {isScalar : ParameterNode → Bool} {fits : Bool} {peelSlots : Nat} {ps : List Param}
  {s : Partition}

/-- Every parameter is in one of the groups. -/
theorem mem_iff (h : Spec isScalar fits peelSlots ps s) (p : Param) :
    p ∈ ps ↔ p ∈ s.inParams ∨ p ∈ s.outParams ∨ p ∈ s.peeledParams := by
  have hpeeled : p ∈ s.peeledParams → p ∈ ps := by
    rw [h.peeledParams]
    exact fun hmem => List.mem_of_mem_filter (List.mem_of_mem_take hmem)
  rw [h.inParams, h.outParams]
  by_cases hp : p ∈ s.peeledParams
  · simp [hp, hpeeled hp]
  · by_cases hout : p.node.direction = .OUT <;> simp [List.contains_eq_mem, hp, hout]

theorem direction_of_mem_in (h : Spec isScalar fits peelSlots ps s) {p : Param}
    (hp : p ∈ s.inParams) : p.node.direction ≠ .OUT ∧ p ∉ s.peeledParams := by
  rw [h.inParams] at hp
  simpa [List.contains_eq_mem] using (List.mem_filter.1 hp).2

theorem direction_of_mem_out (h : Spec isScalar fits peelSlots ps s) {p : Param}
    (hp : p ∈ s.outParams) : p.node.direction = .OUT := by
  rw [h.outParams] at hp
  simpa using (List.mem_filter.1 hp).2

theorem notMem_of_direction_out (h : Spec isScalar fits peelSlots ps s) {p : Param}
    (hdir : p.node.direction = .OUT) : p ∉ s.inParams ∧ p ∉ s.peeledParams := by
  refine ⟨fun hmem => (h.direction_of_mem_in hmem).1 hdir, fun hmem => ?_⟩
  rw [h.peeledParams] at hmem
  have hscalar := (List.mem_filter.1 (List.mem_of_mem_take hmem)).2
  simp [IsInScalar, hdir] at hscalar

theorem isInScalar_of_mem_peeled (h : Spec isScalar fits peelSlots ps s) {p : Param}
    (hp : p ∈ s.peeledParams) : IsInScalar isScalar p = true := by
  rw [h.peeledParams] at hp
  exact (List.mem_filter.1 (List.mem_of_mem_take hp)).2

theorem length_peeledParams_le (h : Spec isScalar fits peelSlots ps s) :
    s.peeledParams.length ≤ peelSlots := by
  rw [h.peeledParams, List.length_take]
  exact Nat.min_le_left _ _

theorem nodup_peeledParams (h : Spec isScalar fits peelSlots ps s) (hps : ps.Nodup) :
    s.peeledParams.Nodup := by
  rw [h.peeledParams]
  exact (hps.filter _).sublist (List.take_sublist _ _)

end Partition.Spec

/-- Leaving out scalars that are in no slot changes nothing. -/
theorem take_filter_congr {α : Type} {v c : α → Bool} (hvc : ∀ a, v a = true → c a = true)
    {n : Nat} {l : List α} (h : ∀ a ∈ (l.filter c).take n, v a = true) :
    (l.filter v).take n = (l.filter c).take n := by
  induction l generalizing n with
  | nil => rfl
  | cons a l ih =>
    by_cases hc : c a = true
    · cases n with
      | zero => rfl
      | succ n =>
        rw [List.filter_cons_of_pos hc, List.take_succ_cons, List.forall_mem_cons] at h
        rw [List.filter_cons_of_pos hc, List.filter_cons_of_pos h.1, List.take_succ_cons,
          List.take_succ_cons, ih h.2]
    · rw [List.filter_cons_of_neg hc] at h ⊢
      rw [List.filter_cons_of_neg fun hv => hc (hvc a hv)]
      exact ih h

/-- Two partitions of the same parameters by the same slots and the same use of registers. -/
theorem Partition.Spec.congr {v c : ParameterNode → Bool} {fv fc : Bool} {n : Nat}
    {ps : List Param} {s t : Partition} (hs : Spec v fv n ps s) (ht : Spec c fc n ps t)
    (hreg : s.canUseCallReg = t.canUseCallReg) (hpeeled : s.peeledParams = t.peeledParams) :
    s = t := by
  have hin : s.inParams = t.inParams := by rw [hs.inParams, ht.inParams, hpeeled]
  have hout : s.outParams = t.outParams := by rw [hs.outParams, ht.outParams]
  cases s
  cases t
  congr

end Sidlc
