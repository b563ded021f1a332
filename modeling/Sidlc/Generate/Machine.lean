import Sidlc.Generate.Equiv.Hygiene
import Sidlc.Library.CMemory

/-!
# Compiling generated code

A `Machine` is what C makes of the generated texts: the types that they denote, what can be assigned
and what names are free. The code of a function compiles where its names are free, its types are
complete, and it converts and assigns what C lets it (`ClientStub.Compiles`,
`DispatchCase.Compiles`).
-/

namespace Sidlc

open CValue

/-- What the generated code is compiled and run with. -/
structure Machine where
  /-- The type that a C text denotes, if it denotes a complete one. -/
  kindOf : Bytes → Option Kind
  kindOf_star : ∀ text k, kindOf (text ++ ascii "*") = some k → k = .pointer
  size_le : ∀ text k, kindOf text = some k → k.size ≤ 2 ^ 64
  /-- Nothing of the type can be assigned: it is `const`, or a structure with such a member. -/
  isConst : Bytes → Bool
  /-- From a value of the type, code gets at memory that it can store to: behind a pointer to what
  is not `const`, itself or in a member. -/
  lends : Bytes → Bool
  lends_star : ∀ text, isConst text = false → lends (text ++ ascii " *") = true
  /-- The generated code can declare something under the name: it is no keyword, and neither the
  headers nor the rest of the generated code have taken it. -/
  isFree : Bytes → Bool
  /-- The offset of a member of a structure, by the types of the members and its position. -/
  offset : List Bytes → Nat → Address
  /-- `CHECK_SUCCESS` -/
  checkSuccess : Int → Bool
  statusSuccess : Int
  checkSuccess_statusSuccess : checkSuccess statusSuccess = true
  statusInvalidValue : Int
  checkSuccess_statusInvalidValue : checkSuccess statusInvalidValue = false

namespace Machine

variable (M : Machine)

def IsType (type : Bytes) : Prop :=
  (M.kindOf type).isSome

/-- A type that an argument in a register can be converted to. -/
def IsScalar (type : Bytes) : Prop :=
  ∃ k ∈ M.kindOf type, k.IsScalar

instance (type : Bytes) : Decidable (M.IsType type) :=
  inferInstanceAs (Decidable (_ = true))

instance (type : Bytes) : Decidable (M.IsScalar type) :=
  inferInstanceAs (Decidable (∃ k ∈ M.kindOf type, k.IsScalar))

/-- `sizeof(type)` -/
def sizeOf (type : Bytes) : Nat :=
  ((M.kindOf type).map Kind.size).getD 0

/-- The bytes of a variable of the type. -/
def represent (type : Bytes) (v : Option Value) : List UInt8 :=
  match M.kindOf type, v with
  | some k, some v => CValue.represent k v
  | _, _ => []

/-- The address of the member named after `p`. -/
def member (base : Address) (fields : List BlockField) (p : Param) : Address :=
  base + M.offset (fields.map BlockField.type)
    (fields.findIdx fun f => f.param.node.name = p.node.name)

theorem sizeOf_le (type : Bytes) : M.sizeOf type ≤ 2 ^ 64 := by
  unfold sizeOf
  cases h : M.kindOf type with
  | none => exact Nat.zero_le _
  | some k => exact M.size_le type k h

end Machine

/-! ### Code that compiles -/

/-- What is cast to `unsigned long`, or passed as a pointer. -/
def ClientStub.words (stub : ClientStub) : List Param :=
  match stub.call with
  | .callK args => args
  | .callN inArg outArg peel =>
    (match inArg with
      | .pointer p => [p]
      | _ => []) ++
    (match outArg with
      | .pointer p => [p]
      | _ => []) ++ peel.filterMap id

def OutBuffer.types : OutBuffer → List Bytes
  | .absent => []
  | .single type => [type]
  | .struct fields => fields.map BlockField.type

/-- The types of the output that is assigned through the pointers of the caller. -/
def ClientStub.outTypes (stub : ClientStub) : List Bytes :=
  stub.outBuffer.types

/-- The argument list does not end in the comma behind the output block. -/
def StubCall.Closed : StubCall → Prop
  | .callK _ => True
  | .callN _ _ peel => peel ≠ []

instance (call : StubCall) : Decidable call.Closed := by
  unfold StubCall.Closed
  split <;> infer_instance

structure ClientStub.Compiles (M : Machine) (stub : ClientStub) : Prop where
  nodup : stub.parameterNames.Nodup
  function : M.isFree stub.function = true
  names : ∀ f ∈ stub.parameters,
    M.isFree f.param.node.name = true ∧ M.isFree f.param.stubName = true
  types : ∀ f ∈ stub.parameters, M.IsType f.type
  words : ∀ p ∈ stub.words, M.IsScalar (stub.typeOf p)
  output : ∀ type ∈ stub.outTypes, M.IsType type ∧ M.isConst type = false
  closed : stub.call.Closed

instance (M : Machine) (stub : ClientStub) : Decidable (stub.Compiles M) :=
  decidable_of_iff (_ ∧ _ ∧ _ ∧ _ ∧ _ ∧ _ ∧ _)
    ⟨fun ⟨h₁, h₂, h₃, h₄, h₅, h₆, h₇⟩ => ⟨h₁, h₂, h₃, h₄, h₅, h₆, h₇⟩,
      fun h => ⟨h.nodup, h.function, h.names, h.types, h.words, h.output, h.closed⟩⟩

/-- The initializer is one of the words, which is cast to the type of the variable. -/
def ArgExpression.isWord : ArgExpression → Bool
  | slot _ | pointerSlot _ => true
  | _ => false

/-- The names that the case declares. -/
def DispatchCase.names (c : DispatchCase) : List Bytes :=
  (if c.inBlock.isSome then [ascii "in"] else []) ++
    (if c.outBlock.isSome then [ascii "out"] else []) ++ c.locals.map fun l => l.param.node.name

structure DispatchCase.Compiles (M : Machine) (c : DispatchCase) : Prop where
  usesOwn : c.UsesOwn
  nodup : c.names.Nodup
  callee : M.isFree c.callee = true
  names : ∀ l ∈ c.locals, M.isFree l.param.node.name = true
  types : ∀ l ∈ c.locals, M.IsType l.type
  words : ∀ l ∈ c.locals, l.init.isWord = true → M.IsScalar l.type
  output : ∀ f ∈ c.outBlock.getD [], M.IsType f.type

instance (c : DispatchCase) : Decidable c.UsesOwn :=
  inferInstanceAs (Decidable (∀ use ∈ c.uses, use.1 ∉ use.2))

instance (M : Machine) (c : DispatchCase) : Decidable (c.Compiles M) :=
  decidable_of_iff (_ ∧ _ ∧ _ ∧ _ ∧ _ ∧ _ ∧ _)
    ⟨fun ⟨h₁, h₂, h₃, h₄, h₅, h₆, h₇⟩ => ⟨h₁, h₂, h₃, h₄, h₅, h₆, h₇⟩,
      fun h => ⟨h.usesOwn, h.nodup, h.callee, h.names, h.types, h.words, h.output⟩⟩

/-! ### A machine -/

/-- The type behind its qualifiers. -/
def dropConst : Bytes → Bytes
  | 0x63 :: 0x6f :: 0x6e :: 0x73 :: 0x74 :: 0x20 :: text => dropConst text
  | text => text

/-- A type of the builtin names, a pointer, or else a structure of eight bytes. -/
def builtinKindOf (text : Bytes) : Option Kind :=
  if text.getLast? = some 0x2a then some .pointer
  else if dropConst text = ascii "void" then none
  else
    match typeInfos.find? fun info => info.2.langName = dropConst text with
    | some info => some (.integer info.2.size (info.1.head? = some 0x73))
    | none => some (.object (dropConst text) 8)

theorem builtinKindOf_star (text : Bytes) (k : Kind)
    (h : builtinKindOf (text ++ ascii "*") = some k) : k = .pointer := by
  have hlast : (text ++ ascii "*").getLast? = some 0x2a := List.getLast?_concat
  rw [builtinKindOf, if_pos hlast] at h
  exact (Option.some.inj h).symm

theorem size_builtinKindOf (text : Bytes) (k : Kind) (h : builtinKindOf text = some k) :
    k.size ≤ 2 ^ 64 := by
  have hinfos : ∀ info ∈ typeInfos, info.2.size ≤ 8 := by decide
  unfold builtinKindOf at h
  split_ifs at h
  · obtain rfl := Option.some.inj h
    decide
  · split at h
    · next info hinfo =>
      obtain rfl := Option.some.inj h
      have hle := hinfos info (List.mem_of_find?_eq_some hinfo)
      show info.2.size ≤ 2 ^ 64
      omega
    · obtain rfl := Option.some.inj h
      show 8 ≤ 2 ^ 64
      decide

def builtinIsConst (text : Bytes) : Bool :=
  text.getLast? ≠ some 0x2a && dropConst text ≠ text

/-- The type behind a pointer. -/
def dropStar (text : Bytes) : Bytes :=
  if text.dropLast.getLast? = some 0x20 then text.dropLast.dropLast else text.dropLast

def builtinLends (text : Bytes) : Bool :=
  text.getLast? = some 0x2a && !builtinIsConst (dropStar text)

theorem builtinLends_star (text : Bytes) (h : builtinIsConst text = false) :
    builtinLends (text ++ ascii " *") = true := by
  have hstar : text ++ ascii " *" = text ++ [0x20] ++ [0x2a] := by
    rw [List.append_assoc]
    rfl
  have hpointee : dropStar (text ++ [0x20] ++ [0x2a]) = text := by
    rw [dropStar, List.dropLast_concat, List.getLast?_concat, if_pos rfl, List.dropLast_concat]
  rw [builtinLends, hstar, List.getLast?_concat, hpointee, h]
  rfl

/-- The keywords of C. -/
def cKeywords : List Bytes :=
  ["auto", "break", "case", "char", "const", "continue", "default", "do", "double", "else", "enum",
    "extern", "float", "for", "goto", "if", "inline", "int", "long", "register", "restrict",
    "return", "short", "signed", "sizeof", "static", "struct", "switch", "typedef", "union",
    "unsigned", "void", "volatile", "while", "_Alignas", "_Alignof", "_Atomic", "_Bool", "_Complex",
    "_Generic", "_Imaginary", "_Noreturn", "_Static_assert", "_Thread_local"].map ascii

/-- A machine with the builtin types, structures of eight-byte members, and negative numbers for
failures. -/
def lp64 : Machine where
  kindOf := builtinKindOf
  kindOf_star := builtinKindOf_star
  size_le := size_builtinKindOf
  isConst := builtinIsConst
  lends := builtinLends
  lends_star := builtinLends_star
  isFree name := IsWord name && !cKeywords.contains name
  offset _ i := BitVec.ofNat 64 (8 * i)
  checkSuccess status := 0 ≤ status
  statusSuccess := 0
  checkSuccess_statusSuccess := rfl
  statusInvalidValue := -1
  checkSuccess_statusInvalidValue := rfl

end Sidlc
