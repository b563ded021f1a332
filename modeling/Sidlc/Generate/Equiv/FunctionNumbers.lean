import Mathlib.Data.List.Nodup
import Sidlc.Equiv.Recompile
import Sidlc.Generate.Header
import Sidlc.Generate.ModuleSource

/-!
# Function numbers

Three generators number the functions of an interface, each in its own way: by the ids in macros and
case labels, by the order of the fields of the vtable, and by the id of the last function in the
bounds. For the functions of a compiled artifact all of them agree, as long as no other macro of the
header takes the name of the macro of a function: that of the span does for a function called `SPAN`
(`compiled_numbering_iff`).
-/

namespace Sidlc

/-- A fold that appends to one part of its state. -/
theorem foldl_append_part {σ α β : Type} {step : σ → α → σ} {part : σ → List β} {out : α → List β}
    (h : ∀ s a, part (step s a) = part s ++ out a) (s : σ) (l : List α) :
    part (l.foldl step s) = part s ++ l.flatMap out := by
  induction l generalizing s with
  | nil => simp
  | cons a l ih => rw [List.foldl_cons, ih, h, List.flatMap_cons, List.append_assoc]

/-- A fold that leaves one part of its state alone. -/
theorem foldl_part {σ α β : Type} {step : σ → α → σ} {part : σ → β}
    (h : ∀ s a, part (step s a) = part s) (s : σ) (l : List α) :
    part (l.foldl step s) = part s := by
  induction l generalizing s with
  | nil => rfl
  | cons a l ih => rw [List.foldl_cons, ih, h]

/-! ### The header -/

/-- `<PREFIX>FUNCID_<name>`, the macro with the id of the function `name`. -/
def funcidName (pfx name : Bytes) : Bytes :=
  toUpper pfx ++ ascii "FUNCID_" ++ name

def funcidMacro (pfx : Bytes) (node : FunctionNode) : HeaderMacro :=
  .number (funcidName pfx node.name) node.id.toNat

/-- The macros of `visit(EnumNode &)`. -/
def enumMacros (macroInterfaceName : Bytes) (node : EnumNode) : List HeaderMacro :=
  node.members.map fun m =>
    .enumMember (macroInterfaceName ++ ascii "_" ++ toUpper node.name ++ ascii "_" ++ m.name)
      m.value

/-- The macros of the types of a revision. -/
def typeMacros (macroInterfaceName : Bytes) (node : AbiversionNode) : List HeaderMacro :=
  node.bitfields.flatMap (bitfieldMacros macroInterfaceName) ++
    node.enums.flatMap (enumMacros macroInterfaceName)

def revisionMacros (pfx macroInterfaceName : Bytes) (node : AbiversionNode) : List HeaderMacro :=
  typeMacros macroInterfaceName node ++ node.functions.map (funcidMacro pfx)

def prototype (pfx : Bytes) (node : FunctionNode) : FunctionDeclaration :=
  ⟨pfx ++ node.name, handleParameter :: node.parameters.map (parameterDeclaration pfx)⟩

def vtableField (pfx : Bytes) (node : FunctionNode) : FunctionDeclaration :=
  ⟨node.name,
    contextParameter :: handleParameter :: node.parameters.map (parameterDeclaration pfx)⟩

namespace HeaderBuffers

variable (pfx macroInterfaceName : Bytes) (b : HeaderBuffers)

/-- What a revision adds to the macros, and to the parts of the header that list functions. -/
theorem visitAbiversion_spec (node : AbiversionNode) :
    (b.visitAbiversion pfx macroInterfaceName node).macros
        = b.macros ++ revisionMacros pfx macroInterfaceName node ∧
      (b.visitAbiversion pfx macroInterfaceName node).functions
        = b.functions ++ node.functions.map (prototype pfx) ∧
      (b.visitAbiversion pfx macroInterfaceName node).moduleVtableFields
        = b.moduleVtableFields ++ node.functions.map (vtableField pfx) ∧
      (b.visitAbiversion pfx macroInterfaceName node).totalFuncidSpan
        = visitSpan b.totalFuncidSpan node := by
  set b₁ := node.bitfields.foldl (visitBitfield pfx macroInterfaceName) b with hb₁
  set b₂ := node.enums.foldl (visitEnum pfx macroInterfaceName) b₁ with hb₂
  set b₃ := node.structs.foldl (visitStruct pfx) b₂ with hb₃
  -- the declarations before the functions leave the other three alone
  have hsame {β : Type} (part : HeaderBuffers → β)
      (hbitfield : ∀ s a, part (visitBitfield pfx macroInterfaceName s a) = part s)
      (henum : ∀ s a, part (visitEnum pfx macroInterfaceName s a) = part s)
      (hstruct : ∀ s a, part (visitStruct pfx s a) = part s) : part b₃ = part b := by
    rw [hb₃, foldl_part hstruct, hb₂, foldl_part henum, hb₁, foldl_part hbitfield]
  have hflat {β : Type} (g : FunctionNode → β) :
      node.functions.flatMap (fun f => [g f]) = node.functions.map g :=
    List.map_eq_flatMap.symm
  refine ⟨?_, ?_, ?_, ?_⟩
  · have hbitfield (b : HeaderBuffers) (n : BitfieldNode) :
        macros (visitBitfield pfx macroInterfaceName b n)
          = macros b ++ bitfieldMacros macroInterfaceName n := rfl
    have henum (b : HeaderBuffers) (n : EnumNode) :
        macros (visitEnum pfx macroInterfaceName b n)
          = macros b ++ enumMacros macroInterfaceName n := rfl
    have hstruct (b : HeaderBuffers) (n : StructNode) :
        macros (visitStruct pfx b n) = macros b := rfl
    have hstep (b : HeaderBuffers) (f : FunctionNode) :
        macros (visitFunction pfx b f) = macros b ++ [funcidMacro pfx f] := rfl
    have h := foldl_append_part hstep b₃ node.functions
    rw [hflat, hb₃, foldl_part hstruct, hb₂, foldl_append_part henum, hb₁,
      foldl_append_part hbitfield, List.append_assoc, List.append_assoc] at h
    rw [revisionMacros, typeMacros, List.append_assoc]
    exact h
  · have hstep (b : HeaderBuffers) (f : FunctionNode) :
        functions (visitFunction pfx b f) = functions b ++ [prototype pfx f] := rfl
    have h := foldl_append_part hstep b₃ node.functions
    rw [hflat, hsame functions (fun _ _ => rfl) (fun _ _ => rfl) fun _ _ => rfl] at h
    exact h
  · have hstep (b : HeaderBuffers) (f : FunctionNode) :
        moduleVtableFields (visitFunction pfx b f) = moduleVtableFields b ++ [vtableField pfx f] :=
      rfl
    have h := foldl_append_part hstep b₃ node.functions
    rw [hflat, hsame moduleVtableFields (fun _ _ => rfl) (fun _ _ => rfl) fun _ _ => rfl] at h
    exact h
  · have hstep (b : HeaderBuffers) (f : FunctionNode) :
        totalFuncidSpan (visitFunction pfx b f) = totalFuncidSpan b := rfl
    have h := foldl_part hstep b₃ node.functions
    rw [hsame totalFuncidSpan (fun _ _ => rfl) (fun _ _ => rfl) fun _ _ => rfl] at h
    unfold visitSpan
    cases hlast : node.functions.getLast? with
    | some f => simp only [visitAbiversion, hlast]
    | none => simp only [visitAbiversion, hlast]; exact h

theorem foldl_visitAbiversion_spec (nodes : List AbiversionNode) :
    (nodes.foldl (visitAbiversion pfx macroInterfaceName) b).macros
        = b.macros ++ nodes.flatMap (revisionMacros pfx macroInterfaceName) ∧
      (nodes.foldl (visitAbiversion pfx macroInterfaceName) b).functions
        = b.functions ++ (functionsOf nodes).map (prototype pfx) ∧
      (nodes.foldl (visitAbiversion pfx macroInterfaceName) b).moduleVtableFields
        = b.moduleVtableFields ++ (functionsOf nodes).map (vtableField pfx) ∧
      (nodes.foldl (visitAbiversion pfx macroInterfaceName) b).totalFuncidSpan
        = nodes.foldl visitSpan b.totalFuncidSpan := by
  induction nodes generalizing b with
  | nil => simp [functionsOf]
  | cons node nodes ih =>
    obtain ⟨h₁, h₂, h₃, h₄⟩ := b.visitAbiversion_spec pfx macroInterfaceName node
    obtain ⟨i₁, i₂, i₃, i₄⟩ := ih (b.visitAbiversion pfx macroInterfaceName node)
    simp only [List.foldl_cons, functionsOf_cons, List.flatMap_cons, List.map_append,
      ← List.append_assoc]
    rw [i₁, i₂, i₃, i₄, h₁, h₂, h₃, h₄]
    exact ⟨rfl, rfl, rfl, rfl⟩

end HeaderBuffers

/-- The macros behind the revisions. -/
def totalMacros (pfx : Bytes) (span : UInt32) (revisionCount : Nat) : List HeaderMacro :=
  [.number (funcidName pfx (ascii "SPAN")) span.toNat,
    .number (toUpper pfx ++ ascii "ABI_REVISION_COUNT") revisionCount]

/-- The macros and the lists of functions in the headers of an interface. -/
theorem headerBuffers_spec (node : InterfaceNode) :
    (headerBuffers node).macros =
        node.abiversions.flatMap (revisionMacros node.prefixStr (toUpper node.name)) ++
          totalMacros node.prefixStr (node.abiversions.foldl visitSpan 0)
            (headerBuffers node).abiRevisionCount ∧
      (headerBuffers node).functions
        = (functionsOf node.abiversions).map (prototype node.prefixStr) ∧
      (headerBuffers node).moduleVtableFields
        = (functionsOf node.abiversions).map (vtableField node.prefixStr) := by
  obtain ⟨h₁, h₂, h₃, h₄⟩ := HeaderBuffers.foldl_visitAbiversion_spec node.prefixStr
    (toUpper node.name) {} node.abiversions
  refine ⟨?_, h₂, h₃⟩
  -- the two totals come behind the revisions
  have hfinish (b : HeaderBuffers) : (b.finish node.prefixStr).macros
      = b.macros ++ totalMacros node.prefixStr b.totalFuncidSpan b.abiRevisionCount := by
    rw [totalMacros, funcidName, List.append_assoc]
    rfl
  rw [headerBuffers, hfinish, h₁, h₄]
  rfl

/-! ### Macros that are defined again -/

def HeaderMacro.name : HeaderMacro → Bytes
  | bitfieldMask name _ _ | enumMember name _ | number name _ => name

/-- C goes by the last definition of a macro. -/
def lastDefinition (macros : List HeaderMacro) (name : Bytes) : Option HeaderMacro :=
  macros.reverse.find? fun m => m.name = name

/-- The number that a name has behind the macros. -/
def macroValue (macros : List HeaderMacro) (name : Bytes) : Option UInt64 :=
  if IsWord name then (lastDefinition macros name).bind HeaderMacro.denotes else none

theorem lastDefinition_append (xs ys : List HeaderMacro) (name : Bytes) :
    lastDefinition (xs ++ ys) name = (lastDefinition ys name).or (lastDefinition xs name) := by
  rw [lastDefinition, List.reverse_append, List.find?_append]
  rfl

theorem lastDefinition_eq_none_iff {macros : List HeaderMacro} {name : Bytes} :
    lastDefinition macros name = none ↔ ∀ m ∈ macros, m.name ≠ name := by
  simp only [lastDefinition, List.find?_eq_none, List.mem_reverse, decide_eq_true_eq, ne_eq]

theorem funcidName_inj {pfx a b : Bytes} : funcidName pfx a = funcidName pfx b ↔ a = b := by
  rw [funcidName, funcidName, List.append_cancel_left_eq]

/-- The macro of a function, among those of functions of different names. -/
theorem lastDefinition_functions {fs : List FunctionNode} (pfx : Bytes)
    (hnames : (fs.map FunctionNode.name).Nodup) {f : FunctionNode} (hf : f ∈ fs) :
    lastDefinition (fs.map (funcidMacro pfx)) (funcidName pfx f.name)
      = some (funcidMacro pfx f) := by
  have hmem : funcidMacro pfx f ∈ fs.map (funcidMacro pfx) := List.mem_map_of_mem hf
  cases h : lastDefinition (fs.map (funcidMacro pfx)) (funcidName pfx f.name) with
  | none => exact absurd rfl (lastDefinition_eq_none_iff.1 h _ hmem)
  | some m =>
    have hname : m.name = funcidName pfx f.name := by simpa using List.find?_some h
    obtain ⟨g, hg, rfl⟩ := List.mem_map.1 (List.mem_reverse.1 (List.mem_of_find?_eq_some h))
    obtain rfl := List.inj_on_of_nodup_map hnames hg hf (funcidName_inj.1 hname)
    rfl

theorem lastDefinition_otherFunctions {fs : List FunctionNode} (pfx : Bytes) {name : Bytes}
    (hname : name ∉ fs.map FunctionNode.name) :
    lastDefinition (fs.map (funcidMacro pfx)) (funcidName pfx name) = none := by
  rw [lastDefinition_eq_none_iff, List.forall_mem_map]
  intro f hf heq
  exact hname (List.mem_map.2 ⟨f, hf, funcidName_inj.1 heq⟩)

/-- Among revisions without such a function, only their types can define its macro. -/
theorem lastDefinition_otherRevisions {nodes : List AbiversionNode}
    (pfx macroInterfaceName : Bytes) {name : Bytes}
    (hname : name ∉ (functionsOf nodes).map FunctionNode.name) :
    lastDefinition (nodes.flatMap (revisionMacros pfx macroInterfaceName)) (funcidName pfx name)
      = lastDefinition (nodes.flatMap (typeMacros macroInterfaceName)) (funcidName pfx name) := by
  induction nodes with
  | nil => rfl
  | cons node nodes ih =>
    rw [functionsOf_cons, List.map_append, List.mem_append, not_or] at hname
    rw [List.flatMap_cons, List.flatMap_cons, revisionMacros, lastDefinition_append,
      lastDefinition_append, lastDefinition_append, lastDefinition_otherFunctions pfx hname.1,
      ih hname.2, Option.none_or]

theorem lastDefinition_totals (pfx : Bytes) (span : UInt32) (revisionCount : Nat) (name : Bytes) :
    lastDefinition (totalMacros pfx span revisionCount) (funcidName pfx name)
      = if name = ascii "SPAN" then some (.number (funcidName pfx (ascii "SPAN")) span.toNat)
        else none := by
  have hcount : toUpper pfx ++ ascii "ABI_REVISION_COUNT" ≠ funcidName pfx name := by
    rw [funcidName, List.append_assoc, ne_eq, List.append_cancel_left_eq]
    intro h
    have hhead := congrArg List.head? h
    rw [List.head?_append] at hhead
    have hne : (ascii "ABI_REVISION_COUNT").head? ≠ some 0x46 := by decide
    exact hne hhead
  have hcount' : (HeaderMacro.number (toUpper pfx ++ ascii "ABI_REVISION_COUNT")
      revisionCount).name ≠ funcidName pfx name := hcount
  have hspan : (HeaderMacro.number (funcidName pfx (ascii "SPAN")) span.toNat).name
      = funcidName pfx name ↔ name = ascii "SPAN" := funcidName_inj.trans eq_comm
  rw [lastDefinition, totalMacros, List.reverse_cons, List.reverse_singleton,
    List.singleton_append, List.find?_cons_of_neg (by simpa using hcount')]
  split_ifs with hname
  · rw [List.find?_cons_of_pos (by simpa using hspan.2 hname)]
  · rw [List.find?_cons_of_neg (by simpa using fun h => hname (hspan.1 h))]
    rfl

/-! ### The tables of the dispatcher -/

theorem toNat_id_of_numberedFrom {fs : List FunctionNode} (h : NumberedFrom 0 fs)
    (hlt : fs.length < 2 ^ 32) {k : Nat} {f : FunctionNode} (hk : fs[k]? = some f) :
    f.id.toNat = k := by
  have hlen : k < fs.length := (List.getElem?_eq_some_iff.1 hk).1
  rw [h k f hk, UInt32.zero_add, UInt32.toNat_ofNat', Nat.mod_eq_of_lt (by omega)]

/-- Functions numbered from `0` on do not get to the largest id. -/
theorem toNat_id_lt_of_numberedFrom {fs : List FunctionNode} (h : NumberedFrom 0 fs)
    (hlt : fs.length < 2 ^ 32) : ∀ f ∈ fs, f.id.toNat < 2 ^ 32 - 1 := by
  intro f hf
  obtain ⟨k, hk⟩ := List.mem_iff_getElem?.1 hf
  have hlen := (List.getElem?_eq_some_iff.1 hk).1
  rw [toNat_id_of_numberedFrom h hlt hk]
  omega

/-- What `visit(FunctionNode &)` makes of the table, where the id is not the largest. -/
def placeFunction (table : List (Option FunctionNode)) (f : FunctionNode) :
    List (Option FunctionNode) :=
  (table ++ List.replicate (f.id.toNat + 1 - table.length) none).set f.id.toNat (some f)

theorem visitFunction_eq {table : List (Option FunctionNode)} (hlength : table.length < 2 ^ 32)
    (f : FunctionNode) :
    visitFunction table f
      = if f.id.toNat < 2 ^ 32 - 1 then .ok (placeFunction table f) else .error .diverges := by
  unfold visitFunction placeFunction
  simp only
  by_cases hid : f.id.toNat < 2 ^ 32 - 1
  · have hnext : (f.id + 1).toNat = f.id.toNat + 1 := by
      have hone : (1 : UInt32).toNat = 1 := rfl
      rw [UInt32.toNat_add, hone, Nat.mod_eq_of_lt (by omega)]
    rw [if_pos hid, hnext]
    by_cases hlt : table.length ≤ f.id.toNat
    · -- the table grows up to the id
      rw [if_pos hlt, resizeFunctions, List.take_of_length_le (by omega), if_pos (by
        rw [List.length_append, List.length_replicate]; omega)]
    · have hzero : f.id.toNat + 1 - table.length = 0 := by omega
      rw [if_neg hlt, if_pos (by omega), hzero, List.replicate_zero, List.append_nil]
  · -- the size of the table goes around to `0`
    have hmax := f.id.toNat_lt
    have hzero : (f.id + 1).toNat = 0 := by
      have hone : (1 : UInt32).toNat = 1 := rfl
      rw [UInt32.toNat_add, hone]
      omega
    have hle : table.length ≤ f.id.toNat := by omega
    rw [if_neg hid, if_pos hle, hzero]
    have hempty : (resizeFunctions 0 table).length = 0 := by
      rw [resizeFunctions, List.take_zero, List.nil_append, List.length_replicate, Nat.zero_sub]
    rw [hempty, if_neg (Nat.not_lt_zero _)]

/-- The visit of all functions comes to an end where none has the largest id. -/
theorem foldlM_visitFunction (fs : List FunctionNode) :
    fs.foldlM visitFunction []
      = if ∀ f ∈ fs, f.id.toNat < 2 ^ 32 - 1 then .ok (fs.foldl placeFunction [])
        else .error .diverges := by
  suffices h : ∀ table : List (Option FunctionNode), table.length < 2 ^ 32 →
      fs.foldlM visitFunction table
        = if ∀ f ∈ fs, f.id.toNat < 2 ^ 32 - 1 then .ok (fs.foldl placeFunction table)
          else .error .diverges from h [] (by decide)
  induction fs with
  | nil => exact fun table _ => rfl
  | cons f fs ih =>
    intro table hlength
    rw [List.foldlM_cons, visitFunction_eq hlength]
    by_cases hid : f.id.toNat < 2 ^ 32 - 1
    · have hplaced : (placeFunction table f).length < 2 ^ 32 := by
        rw [placeFunction, List.length_set, List.length_append, List.length_replicate]
        omega
      rw [if_pos hid]
      show fs.foldlM visitFunction (placeFunction table f) = _
      rw [ih _ hplaced, List.foldl_cons]
      simp only [List.forall_mem_cons, hid, true_and]
    · rw [if_neg hid, if_neg fun h => hid (h f List.mem_cons_self)]
      rfl

/-- Functions with consecutive ids fill the table in order. -/
theorem foldl_placeFunction {fs : List FunctionNode} (h : NumberedFrom 0 fs)
    (hlt : fs.length < 2 ^ 32) : fs.foldl placeFunction [] = fs.map some := by
  -- from the right: the table has one place for each function before `f`
  induction fs using List.reverseRecOn with
  | nil => rfl
  | append_singleton fs f ih =>
    have hid : f.id.toNat = fs.length := by
      refine toNat_id_of_numberedFrom h hlt ?_
      rw [List.getElem?_append_right le_rfl, Nat.sub_self]
      rfl
    rw [List.length_append, List.length_singleton] at hlt
    -- the table grows by one empty place, which `f` takes
    rw [List.foldl_append, ih (numberedFrom_append.1 h).1 (by omega), List.foldl_cons,
      List.foldl_nil, placeFunction, hid, List.length_map, Nat.add_sub_cancel_left,
      List.set_append_right _ _ (by rw [List.length_map]), List.length_map, Nat.sub_self,
      List.map_append]
    rfl

/-- The span is the number of functions, also behind revisions without any. -/
theorem foldl_visitSpan {nodes : List AbiversionNode} (h : NumberedFrom 0 (functionsOf nodes)) :
    nodes.foldl visitSpan 0 = UInt32.ofNat (functionsOf nodes).length := by
  induction nodes using List.reverseRecOn with
  | nil => rfl
  | append_singleton nodes node ih =>
    have hnode : functionsOf [node] = node.functions := List.flatMap_singleton _ _
    rw [functionsOf_append, hnode] at h ⊢
    obtain ⟨hnodes, hfunctions⟩ := numberedFrom_append.1 h
    rw [List.foldl_append, ih hnodes, List.foldl_cons, List.foldl_nil, visitSpan,
      List.length_append]
    -- a revision without functions keeps the span, any other sets it from its last id
    rcases List.eq_nil_or_concat node.functions with hnil | ⟨fs, f, hfs⟩
    · rw [hnil]
      rfl
    · rw [List.concat_eq_append] at hfs
      rw [hfs] at hfunctions ⊢
      have hid := hfunctions fs.length f (by
        rw [List.getElem?_append_right le_rfl, Nat.sub_self]
        rfl)
      have hsum :
          (0 : UInt32) + UInt32.ofNat (functionsOf nodes).length + UInt32.ofNat fs.length + 1
          = UInt32.ofNat ((functionsOf nodes).length + (fs.length + 1)) := by
        rw [UInt32.ofNat_add, UInt32.ofNat_add, UInt32.zero_add, UInt32.add_assoc]
        rfl
      rw [List.getLast?_concat, List.length_append, List.length_singleton, ← hsum, ← hid]

/-! ### Compiled artifacts -/

/-- The macros with the UUID of an interface, which `types.h` defines first. -/
def uuidMacroNames (name : Bytes) : List Bytes :=
  [ascii "UUID_" ++ toUpper name ++ ascii "_INTERFACE_INIT",
    ascii "UUID_" ++ toUpper name ++ ascii "_INTERFACE"]

/-- The generators agree on the numbers of the functions of an interface: `k` is the number of the
function at position `k`. Fields cannot have names that are `reserved`: keywords, and macros of the
headers that the generated ones include. -/
structure NumberingAgrees (reserved : Bytes → Prop) (node : InterfaceNode)
    (macros : List HeaderMacro) (vtable : List FunctionDeclaration) (user : UserSource)
    (dispatcher : Dispatcher) : Prop where
  id : ∀ (k : Nat) (f : FunctionNode), (functionsOf node.abiversions)[k]? = some f → f.id.toNat = k
  typesFuncid : ∀ (k : Nat) (f : FunctionNode), (functionsOf node.abiversions)[k]? = some f →
    macroValue macros (funcidName node.prefixStr f.name) = some (UInt64.ofNat k)
  typesSpan : macroValue macros (funcidName node.prefixStr (ascii "SPAN"))
    = some (UInt64.ofNat (functionsOf node.abiversions).length)
  clientMacros : user.macros.map (fun m => (m.name, m.value.toNat))
    = (functionsOf node.abiversions).mapIdx fun k f => (ascii "FUNCID_" ++ f.name, k)
  cases : dispatcher.cases.map (fun c => (c.label.toNat, c.callee))
    = (functionsOf node.abiversions).mapIdx fun k f => (k, f.name)
  fields : vtable.map FunctionDeclaration.name
    = (functionsOf node.abiversions).map FunctionNode.name
  /-- C reads the names of the fields as they stand. -/
  fieldNames : ∀ f ∈ vtable, ¬reserved f.name ∧
    f.name ∉ uuidMacroNames node.name ∧ f.name ∉ macros.map HeaderMacro.name
  /-- The slot `vtable_slots[funcid]` is the field that the case for `funcid` calls. -/
  slot : ∀ c ∈ dispatcher.cases,
    (vtable.map FunctionDeclaration.name).idxOf c.callee = c.label.toNat
  bound : dispatcher.bound.toNat = (functionsOf node.abiversions).length
  oneCase : ∀ funcid : UInt32, (dispatcher.cases.countP fun c => c.label = funcid)
    = if funcid < dispatcher.bound then 1 else 0

/-- The names that `types.h` defines as macros. -/
def macroNames (node : InterfaceNode) : List Bytes :=
  (node.abiversions.flatMap (revisionMacros node.prefixStr (toUpper node.name))).map
      HeaderMacro.name ++
    [funcidName node.prefixStr (ascii "SPAN"),
      toUpper node.prefixStr ++ ascii "ABI_REVISION_COUNT"]

/-- No other macro takes the place of the macro of a function. -/
structure NumbersKept (reserved : Bytes → Prop) (node : InterfaceNode) : Prop where
  /-- What begins with the prefix is one word. -/
  spelled : node.prefixStr = [] ∨ IsWord node.prefixStr
  span : ∀ f ∈ functionsOf node.abiversions, f.name ≠ ascii "SPAN"
  /-- Where the types of later revisions define the macro of a function again, it keeps its
  value. -/
  redefined : ∀ before rev after, node.abiversions = before ++ rev :: after →
    ∀ f ∈ rev.functions, ∀ m ∈ lastDefinition (after.flatMap (typeMacros (toUpper node.name)))
      (funcidName node.prefixStr f.name), m.denotes = some (UInt64.ofNat f.id.toNat)
  /-- No function is called like a macro. -/
  free : ∀ f ∈ functionsOf node.abiversions, ¬reserved f.name ∧
    f.name ∉ uuidMacroNames node.name ∧ f.name ∉ macroNames node

/-- A map that sees the numbers of functions sees their positions. -/
theorem map_eq_mapIdx {β : Type} {fs : List FunctionNode} (h : NumberedFrom 0 fs)
    (hlt : fs.length < 2 ^ 32) (g : Nat → FunctionNode → β) :
    (fs.map fun f => g f.id.toNat f) = fs.mapIdx g := by
  refine List.ext_getElem? fun k => ?_
  rw [List.getElem?_map, List.getElem?_mapIdx]
  cases hk : fs[k]? with
  | none => rfl
  | some f => rw [Option.map_some, Option.map_some, toNat_id_of_numberedFrom h hlt hk]

theorem map_id_eq_range {fs : List FunctionNode} (h : NumberedFrom 0 fs)
    (hlt : fs.length < 2 ^ 32) : (fs.map fun f => f.id.toNat) = List.range fs.length := by
  rw [map_eq_mapIdx h hlt fun k _ => k]
  refine List.ext_getElem (by simp) fun k _ _ => ?_
  simp

section Interface

variable {abi : ArchAbi} {node : InterfaceNode}

theorem any_annotations_eq_false (h : node.Normalized) (name : Bytes)
    (hname : name = ascii "uuid" ∨ name = ascii "prefix") :
    (node.annotations.any fun anno => anno.name = name) = false := by
  rw [List.any_eq_false]
  intro anno hanno
  rw [decide_eq_true_eq]
  rintro rfl
  exact (h.annotations anno hanno).2 hname

/-- No annotation is about the identity. -/
theorem find?_identity_of_normalized (h : node.Normalized) :
    (node.annotations.find? fun anno =>
      anno.name = ascii "prefix" || anno.name = ascii "uuid") = none := by
  rw [List.find?_eq_none]
  intro anno hanno
  have hno := (h.annotations anno hanno).2
  simp only [Bool.or_eq_true, decide_eq_true_eq]
  exact fun hname => hno hname.symm

theorem generateHeader_of_normalized (h : node.Normalized) (mode : HeaderMode)
    (habi : 2 < abi.maxRegArgs) :
    generateHeader mode abi node = .ok (match mode with
      | .TYPE => .types (headerBuffers node).macros (headerBuffers node).types
      | .CLIENT => .client (headerBuffers node).functions
      | .SERVER => .server (headerBuffers node).moduleVtableFields abi.argSlotCount
      | .SERVER_CLIENT => .serverClient (headerBuffers node).functions) := by
  rw [generateHeader, if_neg (by omega), h.hasUuid, h.hasPrefix, find?_identity_of_normalized h]
  rfl

theorem generateUserSource_of_normalized (h : node.Normalized) :
    generateUserSource abi node = .ok
      { macros := (functionsOf node.abiversions).map fun f => ⟨ascii "FUNCID_" ++ f.name, f.id⟩
        functions := (functionsOf node.abiversions).map (clientStub abi node.prefixStr) } := by
  rw [generateUserSource, h.hasPrefix, any_annotations_eq_false h _ (.inr rfl)]
  rfl

theorem generateModuleSource_of_normalized (h : node.Normalized) (habi : 2 < abi.maxRegArgs)
    (hids : ∀ f ∈ functionsOf node.abiversions, f.id.toNat < 2 ^ 32 - 1) :
    generateModuleSource abi node = .ok
      { bound := node.abiversions.foldl visitSpan 0
        argSlotCount := abi.argSlotCount
        cases := (((functionsOf node.abiversions).foldl placeFunction []).filterMap id).map
          (dispatchCase abi node.prefixStr (typeValueInfos node)) } := by
  have htable := foldlM_visitFunction (functionsOf node.abiversions)
  rw [if_pos hids] at htable
  rw [generateModuleSource, if_neg (by omega), h.hasPrefix,
    any_annotations_eq_false h _ (.inr rfl), if_neg (by decide), if_neg (by decide)]
  show (functionsOf node.abiversions).foldlM visitFunction [] >>= _ = _
  rw [htable]
  rfl

/-- A function has the field of the vtable that its id counts to. -/
theorem idxOf_name_of_numberedFrom {fs : List FunctionNode} (hnumbered : NumberedFrom 0 fs)
    (hlt : fs.length < 2 ^ 32) (hnames : (fs.map FunctionNode.name).Nodup) {f : FunctionNode}
    (hf : f ∈ fs) : (fs.map FunctionNode.name).idxOf f.name = f.id.toNat := by
  obtain ⟨k, hk⟩ := List.mem_iff_getElem?.1 hf
  obtain ⟨hlen, hget⟩ := List.getElem?_eq_some_iff.1 hk
  have hbound : k < (fs.map FunctionNode.name).length := by rwa [List.length_map]
  have hname : (fs.map FunctionNode.name)[k] = f.name := by
    rw [List.getElem_map, hget]
  rw [toNat_id_of_numberedFrom hnumbered hlt hk, ← hname, hnames.idxOf_getElem]

/-- Each id in use labels one case of the dispatcher. -/
theorem countP_label {fs : List FunctionNode} (hnumbered : NumberedFrom 0 fs)
    (hlt : fs.length < 2 ^ 32) (pfx : Bytes) (infos : TypeValueInfos) (funcid : UInt32) :
    ((fs.map (dispatchCase abi pfx infos)).countP fun c => c.label = funcid)
      = if funcid.toNat < fs.length then 1 else 0 := by
  calc ((fs.map (dispatchCase abi pfx infos)).countP fun c => c.label = funcid)
      = (List.range fs.length).count funcid.toNat := by
        rw [← map_id_eq_range hnumbered hlt, List.countP_map, List.count, List.countP_map]
        refine List.countP_congr fun f _ => ?_
        simp only [Function.comp_apply, decide_eq_true_eq, beq_iff_eq, UInt32.toNat_inj]
        exact Iff.rfl
    _ = if funcid.toNat < fs.length then 1 else 0 := List.count_range

theorem map_name_macros (node : InterfaceNode) :
    (headerBuffers node).macros.map HeaderMacro.name = macroNames node := by
  rw [(headerBuffers_spec node).1, List.map_append, macroNames, totalMacros]
  rfl

/-- The last definition of the macro of a function: that of the span, of a later revision, or its
own. -/
theorem lastDefinition_funcid
    (hnames : ((functionsOf node.abiversions).map FunctionNode.name).Nodup)
    {before after : List AbiversionNode} {rev : AbiversionNode}
    (hrevisions : node.abiversions = before ++ rev :: after) {f : FunctionNode}
    (hf : f ∈ rev.functions) (hspan : f.name ≠ ascii "SPAN") :
    lastDefinition (headerBuffers node).macros (funcidName node.prefixStr f.name)
      = (lastDefinition (after.flatMap (typeMacros (toUpper node.name)))
          (funcidName node.prefixStr f.name)).or (some (funcidMacro node.prefixStr f)) := by
  rw [hrevisions, functionsOf_append, functionsOf_cons, List.map_append, List.map_append] at hnames
  obtain ⟨hrev, -, hafter⟩ := List.nodup_append.1 (List.nodup_append.1 hnames).2.1
  have hother : f.name ∉ (functionsOf after).map FunctionNode.name := fun h =>
    hafter _ (List.mem_map_of_mem hf) _ h rfl
  rw [(headerBuffers_spec node).1, lastDefinition_append, lastDefinition_totals, if_neg hspan,
    Option.none_or, hrevisions, List.flatMap_append, List.flatMap_cons, lastDefinition_append,
    lastDefinition_append, lastDefinition_otherRevisions _ _ hother, revisionMacros,
    lastDefinition_append, lastDefinition_functions _ hrev hf, Option.some_or, Option.or_assoc,
    Option.some_or]

end Interface

/-! ### Words -/

theorem isWordChar_toUpper (c : UInt8) :
    Lexer.isWordChar (if 0x61 ≤ c ∧ c ≤ 0x7a then c - 0x20 else c) = Lexer.isWordChar c := by
  revert c
  decide +kernel

theorem wordStart_toUpper (c : UInt8) :
    (isAlpha (if 0x61 ≤ c ∧ c ≤ 0x7a then c - 0x20 else c) = true ∨
        (if 0x61 ≤ c ∧ c ≤ 0x7a then c - 0x20 else c) = chr '_') ↔
      (isAlpha c = true ∨ c = chr '_') := by
  revert c
  decide +kernel

theorem isWord_toUpper {w : Bytes} : IsWord (toUpper w) ↔ IsWord w := by
  cases w with
  | nil => exact Iff.rfl
  | cons c w =>
    have hchars : (∀ d ∈ toUpper (c :: w), Lexer.isWordChar d = true) ↔
        ∀ d ∈ c :: w, Lexer.isWordChar d = true := by
      rw [toUpper, List.forall_mem_map]
      simp only [isWordChar_toUpper]
    refine and_congr ?_ hchars
    show (∃ d ∈ some _, _) ↔ ∃ d ∈ some c, _
    simp only [Option.mem_def, Option.some.injEq, exists_eq_left', wordStart_toUpper]

/-- A name behind a prefix is one word when the prefix begins one. -/
theorem isWord_funcidName_iff {pfx name : Bytes}
    (hname : ∀ c ∈ name, Lexer.isWordChar c = true) :
    IsWord (funcidName pfx name) ↔ pfx = [] ∨ IsWord pfx := by
  have hfuncid : IsWord (ascii "FUNCID_") := by decide +kernel
  have hchars : ∀ c ∈ ascii "FUNCID_" ++ name, Lexer.isWordChar c = true :=
    List.forall_mem_append.2 ⟨hfuncid.2, hname⟩
  rw [funcidName, List.append_assoc]
  cases pfx with
  | nil =>
    have hstart : isAlpha 0x46 = true ∨ (0x46 : UInt8) = chr '_' := by decide
    exact iff_of_true ⟨⟨0x46, rfl, hstart⟩, hchars⟩ (.inl rfl)
  | cons c pfx =>
    rw [or_iff_right (List.cons_ne_nil _ _), ← isWord_toUpper (w := c :: pfx)]
    refine and_congr Iff.rfl ?_
    rw [List.forall_mem_append, and_iff_left hchars]

theorem isWord_span : IsWord (ascii "SPAN") := by
  decide +kernel

/-! ### When the generators agree -/

section Agrees

variable {abi : ArchAbi} {node : InterfaceNode}

/-- The value of the macro of a function that is not called `SPAN`. -/
theorem macroValue_funcid_iff
    (hnames : ((functionsOf node.abiversions).map FunctionNode.name).Nodup)
    {before after : List AbiversionNode} {rev : AbiversionNode}
    (hrevisions : node.abiversions = before ++ rev :: after) {f : FunctionNode}
    (hf : f ∈ rev.functions) (hspan : f.name ≠ ascii "SPAN")
    (hword : IsWord (funcidName node.prefixStr f.name)) :
    macroValue (headerBuffers node).macros (funcidName node.prefixStr f.name)
        = some (UInt64.ofNat f.id.toNat) ↔
      ∀ m ∈ lastDefinition (after.flatMap (typeMacros (toUpper node.name)))
        (funcidName node.prefixStr f.name), m.denotes = some (UInt64.ofNat f.id.toNat) := by
  rw [macroValue, if_pos hword, lastDefinition_funcid hnames hrevisions hf hspan]
  cases lastDefinition (after.flatMap (typeMacros (toUpper node.name)))
      (funcidName node.prefixStr f.name) with
  | none => exact iff_of_true rfl (by rintro m ⟨⟩)
  | some m =>
    rw [Option.some_or, Option.bind_some]
    exact ⟨fun h m' hm' => Option.some.inj hm' ▸ h, fun h => h m rfl⟩

/-- The macro of the span comes last. -/
theorem macroValue_span (node : InterfaceNode) :
    macroValue (headerBuffers node).macros (funcidName node.prefixStr (ascii "SPAN"))
      = if IsWord (funcidName node.prefixStr (ascii "SPAN")) then
          some (UInt64.ofNat (node.abiversions.foldl visitSpan 0).toNat) else none := by
  rw [macroValue, (headerBuffers_spec node).1, lastDefinition_append, lastDefinition_totals,
    if_pos rfl]
  rfl

theorem map_name_moduleVtableFields (node : InterfaceNode) :
    (headerBuffers node).moduleVtableFields.map FunctionDeclaration.name
      = (functionsOf node.abiversions).map FunctionNode.name := by
  rw [(headerBuffers_spec node).2.2, List.map_map]
  rfl

/-- The fields are the functions, so they have the names of the functions. -/
theorem forall_moduleVtableFields_iff (Free : Bytes → Prop) :
    (∀ f ∈ (headerBuffers node).moduleVtableFields, Free f.name) ↔
      ∀ f ∈ functionsOf node.abiversions, Free f.name := by
  rw [← List.forall_mem_map, map_name_moduleVtableFields, List.forall_mem_map]

/-- The macro of the span has a value only where it is one word. -/
theorem spelled_of_macroValue_span {value : UInt64}
    (h : macroValue (headerBuffers node).macros (funcidName node.prefixStr (ascii "SPAN"))
      = some value) : node.prefixStr = [] ∨ IsWord node.prefixStr := by
  rw [macroValue_span] at h
  by_contra hno
  rw [if_neg (mt (isWord_funcidName_iff isWord_span.2).1 hno)] at h
  cases h

section Kept

variable {reserved : Bytes → Prop} {user : UserSource} {dispatcher : Dispatcher}

/-- Else the macro of the function has two values. -/
theorem NumberingAgrees.name_ne_span
    (h : NumberingAgrees reserved node (headerBuffers node).macros
      (headerBuffers node).moduleVtableFields user dispatcher)
    (hlt : (functionsOf node.abiversions).length < 2 ^ 32) {f : FunctionNode}
    (hf : f ∈ functionsOf node.abiversions) : f.name ≠ ascii "SPAN" := by
  intro hname
  obtain ⟨k, hk⟩ := List.mem_iff_getElem?.1 hf
  have hlen := (List.getElem?_eq_some_iff.1 hk).1
  have hvalue := h.typesFuncid k f hk
  rw [hname, h.typesSpan, Option.some.injEq] at hvalue
  have hnat := congrArg UInt64.toNat hvalue
  rw [UInt64.toNat_ofNat', UInt64.toNat_ofNat', Nat.mod_eq_of_lt (by omega),
    Nat.mod_eq_of_lt (by omega)] at hnat
  omega

theorem NumberingAgrees.numbersKept
    (h : NumberingAgrees reserved node (headerBuffers node).macros
      (headerBuffers node).moduleVtableFields user dispatcher)
    (hlt : (functionsOf node.abiversions).length < 2 ^ 32)
    (hnames : ((functionsOf node.abiversions).map FunctionNode.name).Nodup)
    (hwords : ∀ f ∈ functionsOf node.abiversions, IsWord f.name) : NumbersKept reserved node := by
  have hspelled := spelled_of_macroValue_span h.typesSpan
  refine ⟨hspelled, fun f hf => h.name_ne_span hlt hf, fun before rev after hrevisions f hf => ?_,
    ?_⟩
  · have hmem : f ∈ functionsOf node.abiversions := by
      rw [hrevisions, functionsOf_append, functionsOf_cons]
      exact List.mem_append_right _ (List.mem_append_left _ hf)
    obtain ⟨k, hk⟩ := List.mem_iff_getElem?.1 hmem
    have hvalue := h.typesFuncid k f hk
    rw [← h.id k f hk] at hvalue
    exact (macroValue_funcid_iff hnames hrevisions hf (h.name_ne_span hlt hmem)
      ((isWord_funcidName_iff (hwords f hmem).2).2 hspelled)).1 hvalue
  · have hfieldsFree := h.fieldNames
    rw [map_name_macros] at hfieldsFree
    exact (forall_moduleVtableFields_iff fun name => ¬reserved name ∧
      name ∉ uuidMacroNames node.name ∧ name ∉ macroNames node).1 hfieldsFree

end Kept

theorem NumbersKept.numberingAgrees {reserved : Bytes → Prop} (h : NumbersKept reserved node)
    (hnumbered : NumberedFrom 0 (functionsOf node.abiversions))
    (hlt : (functionsOf node.abiversions).length < 2 ^ 32)
    (hnames : ((functionsOf node.abiversions).map FunctionNode.name).Nodup)
    (hwords : ∀ f ∈ functionsOf node.abiversions, IsWord f.name) :
    NumberingAgrees reserved node (headerBuffers node).macros
      (headerBuffers node).moduleVtableFields
      { macros := (functionsOf node.abiversions).map fun f => ⟨ascii "FUNCID_" ++ f.name, f.id⟩
        functions := (functionsOf node.abiversions).map (clientStub abi node.prefixStr) }
      { bound := node.abiversions.foldl visitSpan 0
        argSlotCount := abi.argSlotCount
        cases := (functionsOf node.abiversions).map
          (dispatchCase abi node.prefixStr (typeValueInfos node)) } := by
  have hbound : (node.abiversions.foldl visitSpan 0).toNat
      = (functionsOf node.abiversions).length := by
    rw [foldl_visitSpan hnumbered, UInt32.toNat_ofNat', Nat.mod_eq_of_lt hlt]
  constructor
  · exact fun k f hk => toNat_id_of_numberedFrom hnumbered hlt hk
  · intro k f hk
    have hmem := List.mem_of_getElem? hk
    obtain ⟨rev, hrev, hf⟩ := List.mem_flatMap.1 hmem
    obtain ⟨before, after, hrevisions⟩ := List.append_of_mem hrev
    rw [← toNat_id_of_numberedFrom hnumbered hlt hk]
    exact (macroValue_funcid_iff hnames hrevisions hf (h.span f hmem)
      ((isWord_funcidName_iff (hwords f hmem).2).2 h.spelled)).2
        (h.redefined before rev after hrevisions f hf)
  · rw [macroValue_span, if_pos ((isWord_funcidName_iff isWord_span.2).2 h.spelled), hbound]
  · rw [← map_eq_mapIdx hnumbered hlt, List.map_map]
    rfl
  · rw [← map_eq_mapIdx hnumbered hlt, List.map_map]
    rfl
  · exact map_name_moduleVtableFields node
  · rw [map_name_macros]
    exact (forall_moduleVtableFields_iff fun name => ¬reserved name ∧
      name ∉ uuidMacroNames node.name ∧ name ∉ macroNames node).2 h.free
  · intro c hc
    obtain ⟨f, hf, rfl⟩ := List.mem_map.1 hc
    rw [map_name_moduleVtableFields]
    exact idxOf_name_of_numberedFrom hnumbered hlt hnames hf
  · exact hbound
  · intro funcid
    have hiff : funcid < node.abiversions.foldl visitSpan 0 ↔
        funcid.toNat < (functionsOf node.abiversions).length := by
      rw [UInt32.lt_iff_toNat_lt, hbound]
    show (((functionsOf node.abiversions).map
        (dispatchCase abi node.prefixStr (typeValueInfos node))).countP
        fun c => c.label = funcid)
      = if funcid < node.abiversions.foldl visitSpan 0 then 1 else 0
    rw [countP_label hnumbered hlt]
    simp only [hiff]

/-- Where the functions of an interface are numbered in order, the generators agree on it when the
macros of the functions keep their values. -/
theorem numberingAgrees_iff (reserved : Bytes → Prop)
    (hnumbered : NumberedFrom 0 (functionsOf node.abiversions))
    (hlt : (functionsOf node.abiversions).length < 2 ^ 32)
    (hnames : ((functionsOf node.abiversions).map FunctionNode.name).Nodup)
    (hwords : ∀ f ∈ functionsOf node.abiversions, IsWord f.name) :
    NumberingAgrees reserved node (headerBuffers node).macros
        (headerBuffers node).moduleVtableFields
        { macros := (functionsOf node.abiversions).map fun f => ⟨ascii "FUNCID_" ++ f.name, f.id⟩
          functions := (functionsOf node.abiversions).map (clientStub abi node.prefixStr) }
        { bound := node.abiversions.foldl visitSpan 0
          argSlotCount := abi.argSlotCount
          cases := (((functionsOf node.abiversions).foldl placeFunction []).filterMap id).map
            (dispatchCase abi node.prefixStr (typeValueInfos node)) } ↔
      NumbersKept reserved node := by
  have htable : ((functionsOf node.abiversions).foldl placeFunction []).filterMap id
      = functionsOf node.abiversions := by
    rw [foldl_placeFunction hnumbered hlt, List.filterMap_map]
    exact List.filterMap_some
  rw [htable]
  exact ⟨fun h => h.numbersKept hlt hnames hwords,
    fun h => h.numberingAgrees hnumbered hlt hnames hwords⟩

end Agrees

/-- While the counter does not go around, the ids can always go on. -/
theorem idsFitFrom_of_lt {total : Nat} {ns : List Nat} (h : total + ns.sum < 2 ^ 32) :
    IdsFitFrom total ns := by
  induction ns generalizing total with
  | nil => trivial
  | cons n ns ih =>
    rw [List.sum_cons] at h
    exact ⟨.inr (.inl (by omega)), ih (by omega)⟩

/-- **The generators agree on the numbers of the functions of a compiled artifact** with fewer than
`2 ^ 32` functions of different names, exactly when no other macro takes the place of the macro of a
function. -/
theorem compiled_numbering_iff (sources : List Bytes) (artifact : Bytes) (interface : InterfaceNode)
    (h : Compiled sources artifact) (hread : sifRead artifact = .ok interface)
    (hlt : (functionsOf interface.abiversions).length < 2 ^ 32)
    (hnames : ((functionsOf interface.abiversions).map FunctionNode.name).Nodup) (abi : ArchAbi)
    (habi : 2 < abi.maxRegArgs) (reserved : Bytes → Prop) :
    ∃ macros types fields user dispatcher,
      generateHeader .TYPE abi interface = .ok (.types macros types) ∧
      generateHeader .SERVER abi interface = .ok (.server fields abi.argSlotCount) ∧
      generateUserSource abi interface = .ok user ∧
      generateModuleSource abi interface = .ok dispatcher ∧
      (NumberingAgrees reserved interface macros fields user dispatcher ↔
        NumbersKept reserved interface) := by
  obtain ⟨interface', ns, hartifact, -, hcount, hnumbered⟩ := h.spec
  obtain rfl : interface' = interface := by
    have hread' := hartifact.sifRead
    rw [hread] at hread'
    exact (Except.ok.inj hread').symm
  have hnumbered := hnumbered.2 (idsFitFrom_of_lt (by omega))
  have hwords : ∀ f ∈ functionsOf interface'.abiversions, IsWord f.name := by
    intro f hf
    obtain ⟨node, hnode, hf⟩ := List.mem_flatMap.1 hf
    obtain ⟨-, -, -, -, hfunctions⟩ :=
      (AbiversionNode.printable_iff node).1 (hartifact.printable node hnode)
    exact (hfunctions f hf).1.1
  exact ⟨_, _, _, _, _, generateHeader_of_normalized hartifact.normalized .TYPE habi,
    generateHeader_of_normalized hartifact.normalized .SERVER habi,
    generateUserSource_of_normalized hartifact.normalized,
    generateModuleSource_of_normalized hartifact.normalized habi
      (toNat_id_lt_of_numberedFrom hnumbered hlt),
    numberingAgrees_iff reserved hnumbered hlt hnames hwords⟩

/-! ### Three functions, and one called `SPAN` -/

/-- A revision of functions without parameters. -/
def namedRevision (version : UInt64) (names : List Bytes) : AbiversionNode :=
  { version
    functions :=
      names.map fun name => { name, annotations := [], parameters := [], id := 0 } }

/-- The macro of a function `SPAN` is defined again, as the number of functions. -/
theorem not_numberingAgrees_span :
    ∃ artifact interface macros types fields user dispatcher,
      Compiled [sampleSource [namedRevision 0 [ascii "SPAN"]]] artifact ∧
      sifRead artifact = .ok interface ∧
      (functionsOf interface.abiversions).length < 2 ^ 32 ∧
      ((functionsOf interface.abiversions).map FunctionNode.name).Nodup ∧
      generateHeader .TYPE x86_64 interface = .ok (.types macros types) ∧
      generateHeader .SERVER x86_64 interface = .ok (.server fields x86_64.argSlotCount) ∧
      generateUserSource x86_64 interface = .ok user ∧
      generateModuleSource x86_64 interface = .ok dispatcher ∧
      ∀ reserved, ¬NumberingAgrees reserved interface macros fields user dispatcher := by
  obtain ⟨artifact, hcompile, hartifact⟩ :=
    compile_sampleSource [namedRevision 0 [ascii "SPAN"]] (by decide +kernel)
      (List.cons_ne_nil _ _) (by decide)
  have hfunctions : functionsOf (sampleCompiled (renumber 0
        ([namedRevision 0 [ascii "SPAN"]].map AbiversionNode.bare))).abiversions
      = [{ name := ascii "SPAN", annotations := [], parameters := [], id := 0 }] := rfl
  have hmaxRegArgs : 2 < x86_64.maxRegArgs := by decide
  refine ⟨artifact, _, _, _, _, _, _, .first hcompile, hartifact.sifRead, ?_, ?_,
    generateHeader_of_normalized hartifact.normalized .TYPE hmaxRegArgs,
    generateHeader_of_normalized hartifact.normalized .SERVER hmaxRegArgs,
    generateUserSource_of_normalized hartifact.normalized,
    generateModuleSource_of_normalized hartifact.normalized hmaxRegArgs
      (by rw [hfunctions]; decide), ?_⟩
  · rw [hfunctions]
    decide
  · rw [hfunctions]
    exact List.pairwise_singleton ..
  · intro reserved h
    have hvalue := h.typesFuncid 0 _ (by rw [hfunctions]; rfl)
    have hspan := h.typesSpan
    rw [hfunctions] at hspan
    rw [hspan] at hvalue
    exact absurd hvalue (by decide)

/-- A revision with an enumeration. -/
def enumRevision (version : UInt64) (names : List Bytes) : AbiversionNode :=
  { namedRevision version names with
    enums :=
      [{ name := ascii "e", baseType := .named false 1 (ascii "u8"), annotations := [],
         members := [⟨ascii "f", 5, []⟩] }] }

/-- Revisions with two functions and with none, extended by one with a third function and an
enumeration whose member is called like the first. -/
theorem compiled_numbering_sample :
    ∃ artifact interface macros types fields user dispatcher,
      Compiled [sampleSource [namedRevision 0 [ascii "f", ascii "g"], namedRevision 1 []],
        sampleSource [enumRevision 2 [ascii "h"]]] artifact ∧
      sifRead artifact = .ok interface ∧
      (functionsOf interface.abiversions).map FunctionNode.name
        = [ascii "f", ascii "g", ascii "h"] ∧
      generateHeader .TYPE x86_64 interface = .ok (.types macros types) ∧
      generateModuleSource x86_64 interface = .ok dispatcher ∧
      NumberingAgrees (· = ascii "int") interface macros fields user dispatcher := by
  obtain ⟨artifact, h, hartifact⟩ := compiled_sampleSources
    [namedRevision 0 [ascii "f", ascii "g"], namedRevision 1 []] [enumRevision 2 [ascii "h"]]
    (by decide +kernel) (List.cons_ne_nil _ _) (by decide +kernel) (by decide)
  generalize hinterface : sampleCompiled _ = interface at hartifact
  have hpre : interface.prefixStr = ascii "smp" := by
    rw [← hinterface]
    rfl
  have hname : interface.name = ascii "sample" := by
    rw [← hinterface]
    rfl
  have hnames : (functionsOf interface.abiversions).map FunctionNode.name
      = [ascii "f", ascii "g", ascii "h"] := by
    rw [← hinterface]
    rfl
  have htypes : interface.abiversions.flatMap (typeMacros (toUpper interface.name))
      = [.enumMember (ascii "SAMPLE_E_f") 5] := by
    rw [← hinterface]
    rfl
  have hmacroNames : macroNames interface
      = ["SMPFUNCID_f", "SMPFUNCID_g", "SAMPLE_E_f", "SMPFUNCID_h", "SMPFUNCID_SPAN",
        "SMPABI_REVISION_COUNT"].map ascii := by
    rw [← hinterface]
    rfl
  have hall (P : Bytes → Prop) (hP : ∀ name ∈ [ascii "f", ascii "g", ascii "h"], P name) :
      ∀ f ∈ functionsOf interface.abiversions, P f.name := by
    rw [← hnames, List.forall_mem_map] at hP
    exact hP
  have hkept : NumbersKept (· = ascii "int") interface := by
    refine ⟨.inr (hpre ▸ by decide +kernel), hall (· ≠ ascii "SPAN") (by decide),
      fun before rev after hrevisions f hf m hm => ?_,
      hall (fun name => name ≠ ascii "int" ∧ name ∉ uuidMacroNames interface.name ∧
        name ∉ macroNames interface) ?_⟩
    · -- the macros of the enumeration begin with another word
      have hmem : m ∈ interface.abiversions.flatMap (typeMacros (toUpper interface.name)) := by
        rw [hrevisions, List.flatMap_append, List.flatMap_cons]
        exact List.mem_append_right _ (List.mem_append_right _
          (List.mem_reverse.1 (List.mem_of_find?_eq_some hm)))
      rw [htypes, List.mem_singleton] at hmem
      have hdefined : m.name = funcidName interface.prefixStr f.name := by
        simpa using List.find?_some hm
      rw [hmem, hpre] at hdefined
      have hsecond := congrArg (fun name : Bytes => name[1]?) hdefined
      have hne : (ascii "SAMPLE_E_f")[1]? ≠ some 0x4d := by decide
      exact absurd hsecond hne
    · rw [hmacroNames, hname]
      decide
  obtain ⟨macros, types, fields, user, dispatcher, hheader, -, -, hmodule, hiff⟩ :=
    compiled_numbering_iff _ artifact interface h hartifact.sifRead
      (by rw [← List.length_map (f := FunctionNode.name), hnames]; decide)
      (by rw [hnames]; decide) x86_64 (by decide) (· = ascii "int")
  exact ⟨artifact, interface, macros, types, fields, user, dispatcher, h, hartifact.sifRead, hnames,
    hheader, hmodule, hiff.2 hkept⟩

end Sidlc
