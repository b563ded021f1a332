import Sidlc.Ast

/-!
# C types of the generators (`ast.cc`, `lang_infos` of `main.cc`)

The only language the compiler generates is C, so its table of builtin types is a constant here.
-/

namespace Sidlc

/-- What the generators read of a `LangTypeInfo`. -/
structure LangTypeInfo where
  langName : Bytes
  size : Nat
  deriving DecidableEq

/-- `lang_infos.at("c").type_infos` -/
def typeInfos : List (Bytes × LangTypeInfo) := [
  (ascii "opaque", ⟨ascii "void", 0⟩),
  (ascii "u8", ⟨ascii "uint8_t", 1⟩),
  (ascii "u16", ⟨ascii "uint16_t", 2⟩),
  (ascii "u32", ⟨ascii "uint32_t", 4⟩),
  (ascii "u64", ⟨ascii "uint64_t", 8⟩),
  (ascii "s8", ⟨ascii "int8_t", 1⟩),
  (ascii "s16", ⟨ascii "int16_t", 2⟩),
  (ascii "s32", ⟨ascii "int32_t", 4⟩),
  (ascii "s64", ⟨ascii "int64_t", 8⟩),
  (ascii "handle", ⟨ascii "StHandle", 4⟩),
  (ascii "status", ⟨ascii "StStatus", 4⟩)]

/-- The C name of a named type. -/
def cName (pfx name : Bytes) : Bytes :=
  match typeInfos.lookup name with
  | some info => info.langName
  | none => pfx ++ name

/-- `if (node.is_const) str += "const ";` -/
def constPart (isConst : Bool) : Bytes :=
  if isConst then ascii "const " else []

/-- `to_c_type` -/
def toCType (pfx : Bytes) : TypeNode → Bytes
  | .ptr c _ inner =>
    let innerType := toCType pfx inner
    constPart c ++ if innerType = ascii "void" then ascii "void *" else innerType ++ ascii " *"
  | .array c _ inner => constPart c ++ toCType pfx inner
  | .named c _ name => constPart c ++ cName pfx name

/-- `get_parameter_c_type`, which the header and the module generator both have; the user source
generator writes the same text piece by piece. -/
def getParameterCType (pfx : Bytes) (node : ParameterNode) : Bytes :=
  let addPointer := node.direction ≠ .IN
  if node.type.isPtr then toCType pfx node.type ++ if addPointer then ascii "*" else []
  else toCType pfx node.type ++ if addPointer then ascii " *" else []

end Sidlc
