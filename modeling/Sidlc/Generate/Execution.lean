import Sidlc.Generate.Machine

/-!
# What generated code does

A call runs the client stub, which passes words to the dispatch case of the function
(`ClientStub.run`, `DispatchCase.run`), in one address space. The C types, the layout of structures
and the status codes are those of a `Machine`, the addresses of the objects of a call those of a
`Frame`. A run is `none` where the code has no meaning: where it does not compile, or a word is used
that is not passed.
-/

namespace Sidlc

open CValue

/-! ### Calls -/

/-- A call of a handler, with the memory before and after it. -/
structure HandlerCall where
  callee : Bytes
  args : List Value
  before : Memory
  status : Int
  after : Memory

/-- What a call ends with. -/
structure Outcome where
  status : Int
  memory : Memory
  calls : List HandlerCall

/-- A handler, behind its context and handle. -/
abbrev Handler :=
  List Value → Memory → Int × Memory

/-! ### The dispatcher -/

namespace DispatchCase

variable (M : Machine) (c : DispatchCase)

/-- `args[i]` as a pointer. -/
def pointerArg (words : List Value) (i : Nat) : Option Address := do
  let word ← words[i]?
  toPointer word

/-- `arg_expr` -/
def evaluate (words : List Value) (m : Memory) : ArgExpression → Option Value
  | .slot i => words[i]?
  | .pointerSlot i => do
    let word ← words[i]?
    cast uintptr word
  | .load type => do
    let a ← pointerArg words 0
    let k ← M.kindOf type
    return m.load a k
  | .inField p => do
    let fields ← c.inBlock
    let base ← pointerArg words 0
    let f ← fields.find? fun f => f.param.node.name = p.node.name
    let k ← M.kindOf f.type
    return m.load (M.member base fields p) k
  | .outField p => do
    let fields ← c.outBlock
    let base ← pointerArg words 1
    return .pointer (M.member base fields p)

/-- The value of a local variable: the initializer, cast to the type of the variable. -/
def localValue (words : List Value) (m : Memory) (l : DispatchLocal) : Option Value := do
  let v ← c.evaluate M words m l.init
  let k ← M.kindOf l.type
  cast k v

/-- `NULL` is passed for a block that the case tests. -/
def rejects (words : List Value) : Bool :=
  (c.checksIn && pointerArg words 0 = some 0) || (c.checksOut && pointerArg words 1 = some 0)

def run (handler : Handler) (words : List Value) (m : Memory) : Option Outcome :=
  if c.Compiles M then
    if c.rejects words then some ⟨M.statusInvalidValue, m, []⟩
    else do
      let args ← c.locals.mapM (c.localValue M words m)
      let (status, after) := handler args m
      return ⟨status, after, [⟨c.callee, args, m, status, after⟩]⟩
  else none

end DispatchCase

/-! ### The client -/

namespace ClientStub

variable (M : Machine) (stub : ClientStub)

/-- The members of `in`. -/
def inMembers : List BlockField :=
  stub.inBlock.getD []

/-- The members of `out`, where it has several. -/
def outMembers : List BlockField :=
  match stub.outBuffer with
  | .struct fields => fields
  | _ => []

/-- The objects of a call that the stub has the addresses of, with their sizes: a parameter whose
address is passed, the variable `out` or its members, and the members of `in`. -/
def objects (inBlock outBuffer argument : Address) : List (Address × Nat) :=
  (match stub.call with
    | .callN (.addressOf p) _ _ => [(argument, M.sizeOf (stub.typeOf p))]
    | _ => []) ++
  (match stub.outBuffer with
    | .absent => []
    | .single type => [(outBuffer, M.sizeOf type)]
    | .struct fields => fields.map fun f => (M.member outBuffer fields f.param, M.sizeOf f.type)) ++
  stub.inMembers.map fun f => (M.member inBlock stub.inMembers f.param, M.sizeOf f.type)

end ClientStub

/-- The addresses of the local variables of a stub. -/
structure Frame (M : Machine) (stub : ClientStub) where
  inBlock : Address
  outBuffer : Address
  /-- `&_p` -/
  argument : Address
  inBlock_ne_null : inBlock ≠ 0
  outBuffer_ne_null : outBuffer ≠ 0
  argument_ne_null : argument ≠ 0
  objects_ne_null : ∀ o ∈ stub.objects M inBlock outBuffer argument, o.1 ≠ 0
  pairwise_inMembers : (stub.inMembers.map fun f =>
    (M.member inBlock stub.inMembers f.param, M.sizeOf f.type)).Pairwise NoOverlap

def Frame.objects {M : Machine} {stub : ClientStub} (F : Frame M stub) : List (Address × Nat) :=
  stub.objects M F.inBlock F.outBuffer F.argument

/-- The byte belongs to a local variable of the stub. -/
def Frame.Holds {M : Machine} {stub : ClientStub} (F : Frame M stub) (b : Address) : Prop :=
  ∃ o ∈ F.objects, Within o.1 o.2 b

namespace ClientStub

variable {M : Machine} {stub : ClientStub} (F : Frame M stub)

/-- The value of `_p`. -/
def valueOf (stub : ClientStub) (args : List Value) (p : Param) : Option Value :=
  ((stub.parameters.zip args).find? fun f => f.1.param.stubName = p.stubName).map Prod.snd

/-- `(unsigned long)_p` -/
def wordOf (stub : ClientStub) (args : List Value) (p : Param) : Option Value := do
  let v ← stub.valueOf args p
  toWord v

/-- The memory in which the call is made, with the `in` block or the variable whose address is
passed. -/
def enter (args : List Value) (m : Memory) : Memory :=
  let m := m.storeAll (stub.inMembers.map fun f =>
    (M.member F.inBlock stub.inMembers f.param, M.represent f.type (stub.valueOf args f.param)))
  match stub.call with
  | .callN (.addressOf p) _ _ =>
    m.storeBytes F.argument (M.represent (stub.typeOf p) (stub.valueOf args p))
  | _ => m

def inWord (args : List Value) : InArgument → Option Value
  | .null => toWord (.pointer 0)
  | .pointer p => stub.wordOf args p
  | .addressOf _ => toWord (.pointer F.argument)
  | .block => toWord (.pointer F.inBlock)

def outWord (args : List Value) : OutArgument → Option Value
  | .null => toWord (.pointer 0)
  | .pointer p => stub.wordOf args p
  | .buffer => toWord (.pointer F.outBuffer)

def peelWord (stub : ClientStub) (args : List Value) : Option Param → Option Value
  | none => toWord (.integer 0)
  | some p => stub.wordOf args p

/-- The words that the call passes behind the handle and the number of the function. -/
def passed (args : List Value) : Option (List Value) :=
  match stub.call with
  | .callK ps => ps.mapM (stub.wordOf args)
  | .callN inArg outArg peel => do
    let inWord ← inWord F args inArg
    let outWord ← outWord F args outArg
    let peel ← peel.mapM (stub.peelWord args)
    return inWord :: outWord :: peel

/-- What is copied: the parameter, and the address and the type of the variable. -/
def copied : CopyOut → Param × Address × Bytes
  | .whole p => (p, F.outBuffer,
    match stub.outBuffer with
    | .single type => type
    | _ => [])
  | .field p => (p, M.member F.outBuffer stub.outMembers p,
    match stub.outMembers.find? fun f => f.param.node.name = p.node.name with
    | some f => f.type
    | none => [])

/-- `if (_p != NULL) { *_p = out; }` -/
def copyBack (args : List Value) (m : Memory) (copy : CopyOut) : Option Memory :=
  let (p, source, type) := copied F copy
  match stub.valueOf args p with
  | some (.pointer a) =>
    some (if a = 0 then m else m.storeBytes a (m.bytes source (M.sizeOf type)))
  | _ => none

/-- A call of the stub. `query` is the status of `StHandle_Query`; `transport` takes the words to
the server. -/
def run (query : Int) (transport : List Value → Memory → Option Outcome) (args : List Value)
    (m : Memory) : Option Outcome :=
  let m := enter F args m
  if stub.Compiles M then
    if M.checkSuccess query then do
      let words ← passed F args
      let outcome ← transport words m
      if M.checkSuccess outcome.status then
        let m ← stub.copyOut.foldlM (copyBack F args) outcome.memory
        return { outcome with status := M.statusSuccess, memory := m }
      else return outcome
    else some ⟨query, m, []⟩
  else none

end ClientStub

end Sidlc
