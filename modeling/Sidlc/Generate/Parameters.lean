import Mathlib.Algebra.Group.Int.Defs
import Sidlc.Generate.CType

/-!
# Parameters and registers (`arch_abi.hh`, `arch_abis` of `main.cc`)

Both sides of a call split the parameters of a function into values that travel in registers of
their own, the rest of the input and the output. The loops are the same, what they take for a
scalar is not.
-/

namespace Sidlc

/-- `maxRegArgs` is a `long`, `pointerSize` a `size_t`. -/
structure ArchAbi where
  pointerSize : Nat
  maxRegArgs : Int

/-- The only entry of `arch_abis`. -/
def x86_64 : ArchAbi :=
  ⟨8, 6⟩

/-- `g_current_arch_abi->max_reg_args - 2`, converted to `size_t`. -/
def ArchAbi.argSlotCount (abi : ArchAbi) : Nat :=
  ((abi.maxRegArgs - 2) % 2 ^ 64).toNat

/-- `n_avail > 2 ? n_avail - 2 : 0` -/
def ArchAbi.peelSlotCount (abi : ArchAbi) : Nat :=
  if abi.argSlotCount > 2 then abi.argSlotCount - 2 else 0

/-- A parameter with its position in the list. The generators tell the nodes apart by address. -/
structure Param where
  index : Nat
  node : ParameterNode
  deriving DecidableEq

def FunctionNode.params (node : FunctionNode) : List Param :=
  node.parameters.mapIdx Param.mk

/-- `can_use_call_reg`, `peeled_params`, `in_params`, `out_params` -/
structure Partition where
  canUseCallReg : Bool
  peeledParams : List Param := []
  inParams : List Param := []
  outParams : List Param := []
  deriving DecidableEq

namespace Partition

/-- One round of `for (const auto &param : node.parameters)`. -/
def add (isScalar : ParameterNode → Bool) (peelSlots : Nat) (s : Partition) (p : Param) :
    Partition :=
  let s := if isScalar p.node then s else { s with canUseCallReg := false }
  if p.node.direction = .OUT then { s with outParams := s.outParams ++ [p] }
  else if isScalar p.node && s.peeledParams.length < peelSlots then
    { s with peeledParams := s.peeledParams ++ [p] }
  else { s with inParams := s.inParams ++ [p] }

end Partition

/-- The partition of the parameters of a function under the ABI. -/
def partition (abi : ArchAbi) (isScalar : ParameterNode → Bool) (node : FunctionNode) : Partition :=
  node.params.foldl (Partition.add isScalar abi.peelSlotCount)
    { canUseCallReg := node.parameters.length ≤ abi.argSlotCount }

end Sidlc
