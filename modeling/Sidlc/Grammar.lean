import Sidlc.Equiv.Lexer
import Sidlc.Library.Grammar
import Sidlc.Parser

/-!
# The grammar of SIDL

Which sequences of lexemes denote which nodes. The productions follow the `parse_*` functions, but
know no lookahead, no errors and no end of input: `interfaceDecl` is the language of whole
interfaces.
-/

namespace Sidlc

open Grammar Sidlc.Parser

namespace Syntax

/-! ### Terminals -/

def token (type : TokenType) : Lang Lexeme Unit :=
  .terminal fun t => if t.1 = type then some () else none

theorem token_iff {type : TokenType} {ts : List Lexeme} {u : Unit} :
    token type ts u ↔ ∃ t, ts = [t] ∧ t.1 = type := by
  refine exists_congr fun t => and_congr_right fun _ => ?_
  by_cases ht : t.1 = type <;> simp [ht]

theorem token_singleton_iff {type : TokenType} {t : Lexeme} {u : Unit} :
    token type [t] u ↔ t.1 = type := by
  rw [token_iff]
  constructor
  · rintro ⟨t', heq, ht⟩
    rw [List.singleton_inj.1 heq]
    exact ht
  · exact fun ht => ⟨t, rfl, ht⟩

def identifier : Lang Lexeme Bytes :=
  .terminal fun t => if t.1 = .identifier then some t.2 else none

def string : Lang Lexeme Bytes :=
  .terminal fun t => if t.1 = .string then some t.2 else none

/-- A number denotes what `std::stoull` makes of its text. -/
def number : Lang Lexeme UInt64 :=
  .terminal fun t => if t.1 = .number then (stoull t.2).toOption else none

/-! ### Annotations -/

def argument : Lang Lexeme ExpressionNode :=
  (do let name ← identifier; return .identifier name : Lang Lexeme ExpressionNode).or
    ((do let text ← string; return .string text : Lang Lexeme ExpressionNode).or
      (do let value ← number; return .number value))

def annotation : Lang Lexeme AnnotationNode := do
  token (op '@')
  let name ← identifier
  token (op '(')
  let args ← .sepBy (token (op ',')) (fun args => do
    let arg ← argument
    return args ++ [arg]) []
  token (op ')')
  return { name, args }

def annotations : Lang Lexeme (List AnnotationNode) :=
  .iterate (fun annotations => do
    let node ← annotation
    return annotations ++ [node]) []

/-! ### Types -/

/-- An optional `const`. -/
def constFlag : Lang Lexeme Bool :=
  (do token .kwdConst; return true : Lang Lexeme Bool).or (return false)

inductive IsType : List Lexeme → TypeNode → Prop
  | named {cs ts : List Lexeme} {c : Bool} {name : Bytes} (hc : constFlag cs c)
      (hname : identifier ts name) : IsType (cs ++ ts) (.named c 0 name)
  | ptr {cs ks ls ts rs : List Lexeme} {c : Bool} {t : TypeNode} (hc : constFlag cs c)
      (hk : token .kwdPtr ks ()) (hl : token (op '<') ls ()) (ht : IsType ts t)
      (hr : token (op '>') rs ()) : IsType (cs ++ (ks ++ (ls ++ (ts ++ rs)))) (.ptr c 0 t)
  | array {cs ks ls ts rs : List Lexeme} {c : Bool} {t : TypeNode} (hc : constFlag cs c)
      (hk : token .kwdArray ks ()) (hl : token (op '<') ls ()) (ht : IsType ts t)
      (hr : token (op '>') rs ()) : IsType (cs ++ (ks ++ (ls ++ (ts ++ rs)))) (.array c 0 t)

def type : Lang Lexeme TypeNode :=
  IsType

/-! ### Declarations -/

def direction : Lang Lexeme Direction :=
  (do token .kwdInout; return .INOUT : Lang Lexeme Direction).or
    ((do token .kwdIn; return .IN : Lang Lexeme Direction).or (do token .kwdOut; return .OUT))

def parameter : Lang Lexeme ParameterNode := do
  let annotations ← annotations
  let direction ← direction
  let type ← type
  let name ← identifier
  return { direction, type, name, annotations }

/-- One more field after those before it. -/
def structField (fields : List StructFieldNode) : Lang Lexeme (List StructFieldNode) := do
  let type ← type
  let name ← identifier
  token (op ';')
  return fields ++ [({ type, name } : StructFieldNode)]

def structDecl : Lang Lexeme StructNode := do
  token .kwdStruct
  let name ← identifier
  token (op '\x7b')
  let fields ← .iterate structField []
  token (op '\x7d')
  token (op ';')
  return { name, annotations := [], fields }

def bitfieldField (fields : List BitfieldFieldNode) : Lang Lexeme (List BitfieldFieldNode) := do
  let name ← identifier
  token (op ':')
  let bits ← number
  token (op ';')
  return fields ++ [({ name, bits } : BitfieldFieldNode)]

def bitfieldDecl : Lang Lexeme BitfieldNode := do
  token .kwdBitfield
  token (op '<')
  let baseType ← type
  token (op '>')
  let name ← identifier
  token (op '\x7b')
  let fields ← .iterate bitfieldField []
  token (op '\x7d')
  token (op ';')
  return { name, baseType, annotations := [], fields }

def enumMember (members : List EnumMemberNode) : Lang Lexeme (List EnumMemberNode) := do
  let annotations ← annotations
  let name ← identifier
  token (op '=')
  let value ← number
  return members ++ [({ name, value, annotations } : EnumMemberNode)]

def enumDecl : Lang Lexeme EnumNode := do
  token .kwdEnum
  token (op '<')
  let baseType ← type
  token (op '>')
  let name ← identifier
  token (op '\x7b')
  let members ← .sepBy (token (op ',')) enumMember []
  token (op '\x7d')
  token (op ';')
  return { name, baseType, annotations := [], members }

/-- A function takes the next free id of the interface. -/
def functionDecl (interface : InterfaceNode) : Lang Lexeme (FunctionNode × InterfaceNode) := do
  token .kwdFunction
  let name ← identifier
  token (op '(')
  let parameters ← .sepBy (token (op ',')) (fun parameters => do
    let node ← parameter
    return parameters ++ [node]) []
  token (op ')')
  token (op ';')
  return ({ name, annotations := [], parameters, id := interface.currentFuncid },
    { interface with currentFuncid := interface.currentFuncid + 1 })

/-- A function apart from its id. -/
def signature : Lang Lexeme (Bytes × List ParameterNode) := do
  token .kwdFunction
  let name ← identifier
  token (op '(')
  let parameters ← .sepBy (token (op ',')) (fun parameters => do
    let node ← parameter
    return parameters ++ [node]) []
  token (op ')')
  token (op ';')
  return (name, parameters)

theorem functionDecl_iff {interface : InterfaceNode} {ts : List Lexeme}
    {result : FunctionNode × InterfaceNode} :
    functionDecl interface ts result ↔ ∃ name parameters, signature ts (name, parameters) ∧
      result = ({ name, annotations := [], parameters, id := interface.currentFuncid },
        { interface with currentFuncid := interface.currentFuncid + 1 }) := by
  have heq : functionDecl interface = (do
      let (name, parameters) ← signature
      return ({ name, annotations := [], parameters, id := interface.currentFuncid },
        { interface with currentFuncid := interface.currentFuncid + 1 })) := by
    simp only [functionDecl, signature, bind_assoc, pure_bind]
  rw [heq, Lang.bind_pure_iff]
  exact Prod.exists

/-! ### Revisions and interfaces -/

/-- An annotation, or a declaration together with the annotations before it. -/
def revisionItem (r : Revision) : Lang Lexeme Revision :=
  (do
    let node ← annotation
    return { r with annotations := r.annotations ++ [node] } : Lang Lexeme Revision).or
  ((do
    let (func, interface) ← functionDecl r.interface
    let func := { func with annotations := r.annotations }
    return ⟨{ r.node with functions := r.node.functions ++ [func] }, [], interface⟩ :
      Lang Lexeme Revision).or
  ((do
    let strct ← structDecl
    let strct := { strct with annotations := r.annotations }
    return ⟨{ r.node with structs := r.node.structs ++ [strct] }, [], r.interface⟩ :
      Lang Lexeme Revision).or
  ((do
    let bitfield ← bitfieldDecl
    let bitfield := { bitfield with annotations := r.annotations }
    return ⟨{ r.node with bitfields := r.node.bitfields ++ [bitfield] }, [], r.interface⟩ :
      Lang Lexeme Revision).or
  (do
    let enumNode ← enumDecl
    let enumNode := { enumNode with annotations := r.annotations }
    return ⟨{ r.node with enums := r.node.enums ++ [enumNode] }, [], r.interface⟩))))

theorem revisionItem_iff_parts {r r' : Revision} {ts : List Lexeme} :
    revisionItem r ts r' ↔
      (∃ node, annotation ts node ∧ r' = { r with annotations := r.annotations ++ [node] }) ∨
      (∃ func interface, functionDecl r.interface ts (func, interface) ∧
        r' = ⟨{ r.node with
            functions := r.node.functions ++ [{ func with annotations := r.annotations }] }, [],
          interface⟩) ∨
      (∃ strct, structDecl ts strct ∧
        r' = ⟨{ r.node with
            structs := r.node.structs ++ [{ strct with annotations := r.annotations }] }, [],
          r.interface⟩) ∨
      (∃ bitfield, bitfieldDecl ts bitfield ∧
        r' = ⟨{ r.node with
            bitfields := r.node.bitfields ++ [{ bitfield with annotations := r.annotations }] }, [],
          r.interface⟩) ∨
      ∃ enumNode, enumDecl ts enumNode ∧
        r' = ⟨{ r.node with
            enums := r.node.enums ++ [{ enumNode with annotations := r.annotations }] }, [],
          r.interface⟩ :=
  or_congr Lang.bind_pure_iff (or_congr (Lang.bind_pure_iff.trans Prod.exists)
    (or_congr Lang.bind_pure_iff (or_congr Lang.bind_pure_iff Lang.bind_pure_iff)))

def abirevision (interface : InterfaceNode) : Lang Lexeme (AbiversionNode × InterfaceNode) := do
  token .kwdAbirevision
  let version ← number
  token (op '\x7b')
  let r ← .iterate revisionItem ⟨{ version }, [], interface⟩
  token (op '\x7d')
  return (r.node, r.interface)

/-- A revision up to its declarations. -/
def revisionHeader : Lang Lexeme UInt64 := do
  token .kwdAbirevision
  let version ← number
  token (op '\x7b')
  return version

theorem abirevision_iff_parts {interface : InterfaceNode} {ts : List Lexeme}
    {result : AbiversionNode × InterfaceNode} :
    abirevision interface ts result ↔
      ∃ version r u xs ys zs, ts = xs ++ (ys ++ zs) ∧ revisionHeader xs version ∧
        Lang.iterate revisionItem ⟨{ version }, [], interface⟩ ys r ∧ token (op '\x7d') zs u ∧
        result = (r.node, r.interface) := by
  have heq : abirevision interface = (do
      let version ← revisionHeader
      let r ← .iterate revisionItem ⟨{ version }, [], interface⟩
      let _ ← token (op '\x7d')
      return (r.node, r.interface)) := by
    simp only [abirevision, revisionHeader, bind_assoc, pure_bind]
  rw [heq]
  exact Lang.enclosed_iff

/-- A revision whose number is the next one after those of the interface, added to it. -/
def nextRevision (firstAbirevision : UInt64) (interface : InterfaceNode) :
    Lang Lexeme InterfaceNode := do
  let (abiversion, interface) ← abirevision interface
  fun ts result => ts = [] ∧
    abiversion.version = firstAbirevision + UInt64.ofNat interface.abiversions.length ∧
    result = { interface with abiversions := interface.abiversions ++ [abiversion] }

theorem nextRevision_iff {firstAbirevision : UInt64} {interface result : InterfaceNode}
    {ts : List Lexeme} :
    nextRevision firstAbirevision interface ts result ↔ ∃ abiversion interface',
      abirevision interface ts (abiversion, interface') ∧
        abiversion.version = firstAbirevision + UInt64.ofNat interface'.abiversions.length ∧
        result = { interface' with abiversions := interface'.abiversions ++ [abiversion] } := by
  constructor
  · rintro ⟨⟨abiversion, interface'⟩, xs, _, rfl, hxs, rfl, hresult⟩
    rw [List.append_nil]
    exact ⟨abiversion, interface', hxs, hresult⟩
  · rintro ⟨abiversion, interface', hts, hresult⟩
    exact ⟨(abiversion, interface'), ts, [], (List.append_nil ts).symm, hts, rfl, hresult⟩

/-- The header of an interface, up to the opening brace, and the interface it begins. -/
def interfaceHeader (firstFuncid : UInt32) : Lang Lexeme InterfaceNode := do
  let annotations ← annotations
  token .kwdInterface
  let name ← identifier
  token (op '\x7b')
  return { name, annotations, currentFuncid := firstFuncid }

/-- The annotations and the name in the header of an interface. -/
def heading : Lang Lexeme (List AnnotationNode × Bytes) := do
  let annotations ← annotations
  token .kwdInterface
  let name ← identifier
  token (op '\x7b')
  return (annotations, name)

theorem interfaceHeader_iff {firstFuncid : UInt32} {ts : List Lexeme} {interface : InterfaceNode} :
    interfaceHeader firstFuncid ts interface ↔ ∃ annotations name,
      heading ts (annotations, name) ∧
        interface = { name, annotations, currentFuncid := firstFuncid } := by
  have heq : interfaceHeader firstFuncid = (do
      let (annotations, name) ← heading
      return { name, annotations, currentFuncid := firstFuncid }) := by
    simp only [interfaceHeader, heading, bind_assoc, pure_bind]
  rw [heq, Lang.bind_pure_iff]
  exact Prod.exists

theorem interfaceHeader_of_heading {ts : List Lexeme} {annotations : List AnnotationNode}
    {name : Bytes} (h : heading ts (annotations, name)) (firstFuncid : UInt32) :
    interfaceHeader firstFuncid ts { name, annotations, currentFuncid := firstFuncid } :=
  interfaceHeader_iff.2 ⟨annotations, name, h, rfl⟩

/-- A whole interface. -/
def interfaceDecl (firstAbirevision : UInt64) (firstFuncid : UInt32) :
    Lang Lexeme InterfaceNode := do
  let interface ← interfaceHeader firstFuncid
  let interface ← .iterate (nextRevision firstAbirevision) interface
  token (op '\x7d')
  return interface

theorem interfaceDecl_iff_parts {firstAbirevision : UInt64} {firstFuncid : UInt32}
    {ts : List Lexeme} {interface : InterfaceNode} :
    interfaceDecl firstAbirevision firstFuncid ts interface ↔
      ∃ header result u xs ys zs, ts = xs ++ (ys ++ zs) ∧ interfaceHeader firstFuncid xs header ∧
        Lang.iterate (nextRevision firstAbirevision) header ys result ∧ token (op '\x7d') zs u ∧
        interface = result :=
  Lang.enclosed_iff

end Syntax

end Sidlc
