import Sidlc.Generate.Execution
import Sidlc.Generate.Header

/-!
# Servers and clients

The whole of `ServerDispatchArgs`, with the vtable that it is given, and the way of a call from a
client to it. Between the two there is a kernel, which is no part of the compiler: it reports a base
for the numbers of the functions of an interface (`StHandle_Query`), takes the words of a call to
the server, and is taken to subtract the base again.
-/

namespace Sidlc

open CValue

/-! ### The server -/

/-- A machine with the status of calls that a server has no function for. -/
structure ServerMachine extends Machine where
  statusNotImplemented : Int
  checkSuccess_statusNotImplemented : checkSuccess statusNotImplemented = false

/-- The slots of a vtable, with `none` for `NULL`. -/
abbrev VTable := List (Option Handler)

/-- What is generated for the server of an interface: the fields of the vtable in its header, and
the dispatcher in its source. -/
structure ServerBinding (abi : ArchAbi) (node : InterfaceNode) where
  vtableFields : List FunctionDeclaration
  argSlotCount : Nat
  dispatcher : Dispatcher
  header : generateHeader .SERVER abi node = .ok (.server vtableFields argSlotCount)
  source : generateModuleSource abi node = .ok dispatcher

/-- What the dispatcher does with the slots of its vtable. -/
inductive SlotEvent where
  /-- `vtable_slots[i] == 0` -/
  | tested (i : Nat) (isNull : Bool)
  /-- `typed_vtable->f(...)`, where `f` is the field at `i`. -/
  | called (i : Nat)
  /-- A slot behind the end of the vtable is read. -/
  | outside (i : Nat)
  deriving DecidableEq

namespace ServerBinding

variable {abi : ArchAbi} {node : InterfaceNode} (s : ServerBinding abi node)

/-- The place of the field in the vtable. -/
def slotOf (callee : Bytes) : Nat :=
  (s.vtableFields.map FunctionDeclaration.name).idxOf callee

/-- The case that `switch (funcid)` takes. -/
def caseOf (funcid : UInt32) : Option DispatchCase :=
  s.dispatcher.cases.find? fun c => c.label = funcid

/-- The uses of the vtable. -/
def slotEvents (vtable : VTable) (funcid : UInt32) (words : List Value) : List SlotEvent :=
  if s.dispatcher.bound ≤ funcid then []
  else
    match vtable[funcid.toNat]? with
    | none => [.outside funcid.toNat]
    | some slot => .tested funcid.toNat slot.isNone ::
      if slot.isNone then []
      else
        match s.caseOf funcid with
        | none => []
        | some c =>
          if c.rejects words then []
          else
            match vtable[s.slotOf c.callee]? with
            | none => [.outside (s.slotOf c.callee)]
            | some _ => [.called (s.slotOf c.callee)]

end ServerBinding

/-- A case with the slot of its function, which has no meaning where `NULL` is called. -/
def DispatchCase.runSlot (M : Machine) (c : DispatchCase) (slot : Option Handler)
    (words : List Value) (m : Memory) : Option Outcome :=
  match slot with
  | some handler => c.run M handler words m
  | none =>
    if c.Compiles M ∧ c.rejects words = true then some ⟨M.statusInvalidValue, m, []⟩ else none

/-- `ServerDispatchArgs`; the vtable and the arguments are `none` for `NULL`. It has no meaning
where a slot behind the end of the vtable is read. -/
def ServerBinding.run {abi : ArchAbi} {node : InterfaceNode} (M : ServerMachine)
    (s : ServerBinding abi node) (vtable : Option VTable) (funcid : UInt32)
    (args : Option (List Value)) (m : Memory) : Option Outcome :=
  match vtable, args with
  | some vtable, some words =>
    if s.dispatcher.bound ≤ funcid then some ⟨M.statusNotImplemented, m, []⟩
    else
      match vtable[funcid.toNat]? with
      | none => none
      | some slot =>
        if slot.isNone then some ⟨M.statusNotImplemented, m, []⟩
        else
          match s.caseOf funcid with
          | none => some ⟨M.statusNotImplemented, m, []⟩
          | some c => c.runSlot M.toMachine (vtable[s.slotOf c.callee]?).join words m
  | _, _ => some ⟨M.statusInvalidValue, m, []⟩

/-! ### The clients -/

/-- What is generated for the clients of an interface. -/
structure ClientBinding (abi : ArchAbi) (node : InterfaceNode) where
  user : UserSource
  source : generateUserSource abi node = .ok user

/-- The number that `FUNCID_name` stands for in the source of a client. -/
def ClientBinding.funcid {abi : ArchAbi} {node : InterfaceNode} (client : ClientBinding abi node)
    (name : Bytes) : Option UInt32 :=
  (client.user.macros.find? fun entry => entry.name = name).map FuncidMacro.value

/-- A call of a stub of the client through the kernel. `query` is the status of `StHandle_Query`,
`base` the number it reports. -/
def ClientBinding.run {abi : ArchAbi} {node : InterfaceNode} (client : ClientBinding abi node)
    {M : Machine} {stub : ClientStub} (F : Frame M stub) (query : Int) (base : UInt32)
    (server : UInt32 → List Value → Memory → Option Outcome) (args : List Value) (m : Memory) :
    Option Outcome := do
  let funcid ← client.funcid stub.funcid
  ClientStub.run F query (fun words m => server (base + funcid - base) words m) args m

/-- Calls one after the other, each in the memory that is left by the one before it. -/
def runSession {κ : Type} (run : κ → Memory → Option Outcome) :
    List κ → Memory → Option (List Outcome)
  | [], _ => some []
  | call :: calls, m => do
    let outcome ← run call m
    let outcomes ← runSession run calls outcome.memory
    return outcome :: outcomes

end Sidlc
