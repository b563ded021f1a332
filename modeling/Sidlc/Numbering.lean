import Mathlib.Data.List.Induction
import Sidlc.Sif.Layout

/-!
# Numbering functions

Functions get their ids one after the other, through all the revisions of an interface, in
thirty-two bits. `renumber id` numbers the functions of some revisions from `id` on; a history is
numbered from `id` when that changes nothing.
-/

namespace Sidlc

/-- The functions with the ids `id`, `id + 1`, .... -/
def renumberFunctions : UInt32 → List FunctionNode → List FunctionNode
  | _, [] => []
  | id, f :: fs => { f with id } :: renumberFunctions (id + 1) fs

/-- The revisions with the functions of all of them numbered from `id` on. -/
def renumber : UInt32 → List AbiversionNode → List AbiversionNode
  | _, [] => []
  | id, node :: nodes =>
    { node with functions := renumberFunctions id node.functions } ::
      renumber (id + UInt32.ofNat node.functions.length) nodes

theorem functionsOf_cons (node : AbiversionNode) (nodes : List AbiversionNode) :
    functionsOf (node :: nodes) = node.functions ++ functionsOf nodes :=
  List.flatMap_cons

theorem functionsOf_append (xs ys : List AbiversionNode) :
    functionsOf (xs ++ ys) = functionsOf xs ++ functionsOf ys :=
  List.flatMap_append

/-! ### One revision -/

@[simp] theorem length_renumberFunctions (id : UInt32) (fs : List FunctionNode) :
    (renumberFunctions id fs).length = fs.length := by
  induction fs generalizing id with
  | nil => rfl
  | cons f fs ih => rw [renumberFunctions, List.length_cons, ih, List.length_cons]

theorem renumberFunctions_append (id : UInt32) (fs gs : List FunctionNode) :
    renumberFunctions id (fs ++ gs)
      = renumberFunctions id fs ++ renumberFunctions (id + UInt32.ofNat fs.length) gs := by
  induction fs generalizing id with
  | nil => simp [renumberFunctions]
  | cons f fs ih =>
    have hid : id + 1 + UInt32.ofNat fs.length = id + UInt32.ofNat (f :: fs).length := by
      rw [List.length_cons, UInt32.ofNat_add, UInt32.add_assoc, UInt32.add_comm 1]
      rfl
    rw [List.cons_append, renumberFunctions, renumberFunctions, ih, hid, List.cons_append]

@[simp] theorem renumberFunctions_renumberFunctions (id other : UInt32) (fs : List FunctionNode) :
    renumberFunctions id (renumberFunctions other fs) = renumberFunctions id fs := by
  induction fs generalizing id other with
  | nil => rfl
  | cons f fs ih => rw [renumberFunctions, renumberFunctions, ih, renumberFunctions]

theorem map_bare_renumberFunctions (id : UInt32) (fs : List FunctionNode) :
    (renumberFunctions id fs).map FunctionNode.bare
      = renumberFunctions id (fs.map FunctionNode.bare) := by
  induction fs generalizing id with
  | nil => rfl
  | cons f fs ih =>
    rw [renumberFunctions, List.map_cons, ih]
    rfl

/-- The ids are consecutive. -/
theorem getElem?_renumberFunctions (id : UInt32) (fs : List FunctionNode) (k : Nat) :
    (renumberFunctions id fs)[k]? = fs[k]?.map fun f => { f with id := id + UInt32.ofNat k } := by
  induction fs generalizing id k with
  | nil => rfl
  | cons f fs ih =>
    cases k with
    | zero => simp [renumberFunctions]
    | succ k =>
      have hid : id + 1 + UInt32.ofNat k = id + UInt32.ofNat (k + 1) := by
        rw [UInt32.ofNat_add, UInt32.add_assoc, UInt32.add_comm 1]
        rfl
      rw [renumberFunctions, List.getElem?_cons_succ, ih, hid, List.getElem?_cons_succ]

/-! ### All revisions -/

@[simp] theorem length_renumber (id : UInt32) (nodes : List AbiversionNode) :
    (renumber id nodes).length = nodes.length := by
  induction nodes generalizing id with
  | nil => rfl
  | cons node nodes ih => rw [renumber, List.length_cons, ih, List.length_cons]

theorem functionsOf_renumber (id : UInt32) (nodes : List AbiversionNode) :
    functionsOf (renumber id nodes) = renumberFunctions id (functionsOf nodes) := by
  induction nodes generalizing id with
  | nil => rfl
  | cons node nodes ih =>
    rw [renumber, functionsOf_cons, functionsOf_cons, ih, renumberFunctions_append]

theorem renumber_append (id : UInt32) (xs ys : List AbiversionNode) :
    renumber id (xs ++ ys)
      = renumber id xs ++ renumber (id + UInt32.ofNat (functionsOf xs).length) ys := by
  induction xs generalizing id with
  | nil => simp [renumber, functionsOf]
  | cons node xs ih =>
    have hid : id + UInt32.ofNat node.functions.length + UInt32.ofNat (functionsOf xs).length
        = id + UInt32.ofNat (functionsOf (node :: xs)).length := by
      rw [functionsOf_cons, List.length_append, UInt32.ofNat_add, UInt32.add_assoc]
    rw [List.cons_append, renumber, renumber, ih, hid, List.cons_append]

@[simp] theorem renumber_renumber (id other : UInt32) (nodes : List AbiversionNode) :
    renumber id (renumber other nodes) = renumber id nodes := by
  induction nodes generalizing id other with
  | nil => rfl
  | cons node nodes ih =>
    rw [renumber, renumber, ih, renumberFunctions_renumberFunctions, length_renumberFunctions,
      renumber]

theorem map_bare_renumber (id : UInt32) (nodes : List AbiversionNode) :
    (renumber id nodes).map AbiversionNode.bare
      = renumber id (nodes.map AbiversionNode.bare) := by
  induction nodes generalizing id with
  | nil => rfl
  | cons node nodes ih =>
    have hlength : node.bare.functions.length = node.functions.length := List.length_map _
    rw [renumber, List.map_cons, ih, List.map_cons, renumber, hlength]
    congr 1
    simp only [AbiversionNode.bare, map_bare_renumberFunctions]

theorem functionsOf_map_bare (nodes : List AbiversionNode) :
    functionsOf (nodes.map AbiversionNode.bare) = (functionsOf nodes).map FunctionNode.bare := by
  induction nodes with
  | nil => rfl
  | cons node nodes ih =>
    rw [List.map_cons, functionsOf_cons, functionsOf_cons, ih, List.map_append]
    rfl

theorem length_functionsOf_map_bare (nodes : List AbiversionNode) :
    (functionsOf (nodes.map AbiversionNode.bare)).length = (functionsOf nodes).length := by
  rw [functionsOf_map_bare, List.length_map]

theorem encodable_renumberFunctions {id : UInt32} {fs : List FunctionNode} :
    (∀ f ∈ renumberFunctions id fs, f.Encodable) ↔ ∀ f ∈ fs, f.Encodable := by
  induction fs generalizing id with
  | nil => rfl
  | cons f fs ih =>
    rw [renumberFunctions, List.forall_mem_cons, List.forall_mem_cons, ih]
    rfl

/-- The format does not mind the ids. -/
theorem encodable_renumber {id : UInt32} {nodes : List AbiversionNode} :
    (∀ node ∈ renumber id nodes, node.Encodable) ↔ ∀ node ∈ nodes, node.Encodable := by
  induction nodes generalizing id with
  | nil => rfl
  | cons node nodes ih =>
    rw [renumber, List.forall_mem_cons, List.forall_mem_cons, ih]
    refine and_congr_left fun _ => ?_
    simp only [AbiversionNode.Encodable, AllEncodable, Countable, encodable_renumberFunctions,
      length_renumberFunctions]

theorem encodable_map_bare {nodes : List AbiversionNode} :
    (∀ node ∈ nodes.map AbiversionNode.bare, node.Encodable) ↔ ∀ node ∈ nodes, node.Encodable := by
  simp

/-! ### Numbered functions -/

/-- The functions have the ids `id`, `id + 1`, .... -/
def NumberedFrom (id : UInt32) (fs : List FunctionNode) : Prop :=
  ∀ (k : Nat) (f : FunctionNode), fs[k]? = some f → f.id = id + UInt32.ofNat k

/-- Functions are numbered when numbering them changes nothing. -/
theorem renumberFunctions_eq_self_iff {id : UInt32} {fs : List FunctionNode} :
    renumberFunctions id fs = fs ↔ NumberedFrom id fs := by
  constructor
  · intro h k f hk
    have hget := getElem?_renumberFunctions id fs k
    rw [h, hk, Option.map_some] at hget
    exact congrArg FunctionNode.id (Option.some.inj hget)
  · intro h
    refine List.ext_getElem? fun k => ?_
    rw [getElem?_renumberFunctions]
    cases hk : fs[k]? with
    | none => rfl
    | some f => rw [Option.map_some, ← h k f hk]

theorem numberedFrom_append {id : UInt32} {fs gs : List FunctionNode} :
    NumberedFrom id (fs ++ gs) ↔
      NumberedFrom id fs ∧ NumberedFrom (id + UInt32.ofNat fs.length) gs := by
  have hlength : (renumberFunctions id fs).length = fs.length := length_renumberFunctions ..
  simp only [← renumberFunctions_eq_self_iff, renumberFunctions_append]
  constructor
  · exact fun h => List.append_inj h hlength
  · rintro ⟨hfs, hgs⟩
    rw [hfs, hgs]

theorem numberedFrom_renumberFunctions_iff {id other : UInt32} {fs : List FunctionNode} :
    NumberedFrom id (renumberFunctions other fs) ↔ fs.length = 0 ∨ id = other := by
  rw [← renumberFunctions_eq_self_iff, renumberFunctions_renumberFunctions]
  cases fs with
  | nil => simp [renumberFunctions]
  | cons f fs =>
    simp only [renumberFunctions, List.cons.injEq, FunctionNode.mk.injEq, true_and,
      List.length_cons, Nat.add_one_ne_zero, false_or]
    constructor
    · exact fun h => h.1
    · rintro rfl
      exact ⟨rfl, rfl⟩

theorem numberedFrom_map_bare {id : UInt32} {fs : List FunctionNode} :
    NumberedFrom id (fs.map FunctionNode.bare) ↔ NumberedFrom id fs := by
  constructor
  · intro h k f hk
    exact h k f.bare (by rw [List.getElem?_map, hk, Option.map_some])
  · intro h k f hk
    rw [List.getElem?_map, Option.map_eq_some_iff] at hk
    obtain ⟨g, hg, rfl⟩ := hk
    exact h k g hg

theorem numberedFrom_functionsOf_map_bare {id : UInt32} {nodes : List AbiversionNode} :
    NumberedFrom id (functionsOf (nodes.map AbiversionNode.bare)) ↔
      NumberedFrom id (functionsOf nodes) := by
  rw [functionsOf_map_bare, numberedFrom_map_bare]

theorem renumber_eq_self_iff {id : UInt32} {nodes : List AbiversionNode} :
    renumber id nodes = nodes ↔ NumberedFrom id (functionsOf nodes) := by
  rw [← renumberFunctions_eq_self_iff, ← functionsOf_renumber]
  constructor
  · exact fun h => congrArg functionsOf h
  · intro h
    induction nodes generalizing id with
    | nil => rfl
    | cons node nodes ih =>
      rw [renumber, functionsOf_cons, functionsOf_cons] at h
      obtain ⟨hnode, hnodes⟩ := List.append_inj h (length_renumberFunctions ..)
      have hsame : renumberFunctions id node.functions = node.functions := hnode
      rw [renumber, ih hnodes, hsame]

/-! ### The next id -/

/-- After `n` functions the running maximum of `read_function` is where the counter of the parser
is: the maximum stays at the last id, while the counter goes around. -/
def IdsContinue (n : Nat) : Prop :=
  n < 2 ^ 32 ∨ n % 2 ^ 32 = 2 ^ 32 - 1

instance : DecidablePred IdsContinue := fun n =>
  inferInstanceAs (Decidable (n < 2 ^ 32 ∨ n % 2 ^ 32 = 2 ^ 32 - 1))

theorem toNat_nextFuncid_of_numberedFrom {fs : List FunctionNode} (h : NumberedFrom 0 fs) :
    (nextFuncid 0 fs).toNat = min fs.length (2 ^ 32 - 1) := by
  induction fs using List.reverseRecOn with
  | nil => rfl
  | append_singleton fs f ih =>
    rw [numberedFrom_append] at h
    have hid : f.id = 0 + UInt32.ofNat fs.length + UInt32.ofNat 0 := h.2 0 f rfl
    have hnext : (f.id + 1).toNat = (fs.length + 1) % 2 ^ 32 := by
      rw [hid, UInt32.zero_add]
      simp
    have hfold : nextFuncid 0 (fs ++ [f]) = max (nextFuncid 0 fs) (f.id + 1) := by
      rw [nextFuncid, List.foldl_append]
      rfl
    rw [hfold, UInt32.toNat_max, ih h.1, hnext, List.length_append, List.length_singleton]
    omega

theorem ofNat_eq_nextFuncid_iff {fs : List FunctionNode} (h : NumberedFrom 0 fs) :
    UInt32.ofNat fs.length = nextFuncid 0 fs ↔ IdsContinue fs.length := by
  rw [← UInt32.toNat_inj, toNat_nextFuncid_of_numberedFrom h, UInt32.toNat_ofNat', IdsContinue]
  omega

/-! ### Declaring revisions -/

namespace InterfaceNode

/-- The interface after `n` functions have taken their ids. -/
def takeIds (interface : InterfaceNode) (n : Nat) : InterfaceNode :=
  { interface with currentFuncid := interface.currentFuncid + UInt32.ofNat n }

/-- The interface after the revisions `nodes` have been parsed: their functions are numbered on from
the current id. -/
def declare (interface : InterfaceNode) (nodes : List AbiversionNode) : InterfaceNode :=
  { interface with
    abiversions :=
      interface.abiversions ++ renumber interface.currentFuncid (nodes.map AbiversionNode.bare)
    currentFuncid := interface.currentFuncid + UInt32.ofNat (functionsOf nodes).length }

theorem declare_nil (interface : InterfaceNode) : interface.declare [] = interface := by
  simp [declare, renumber, functionsOf]

theorem declare_declare (interface : InterfaceNode) (xs ys : List AbiversionNode) :
    (interface.declare xs).declare ys = interface.declare (xs ++ ys) := by
  simp only [declare, List.map_append, renumber_append, length_functionsOf_map_bare,
    functionsOf_append, List.length_append, UInt32.ofNat_add, UInt32.add_assoc, List.append_assoc]

end InterfaceNode

end Sidlc
