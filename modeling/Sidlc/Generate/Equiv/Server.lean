import Sidlc.Generate.Equiv.NullBlocks
import Sidlc.Generate.Server

/-!
# What a dispatcher does with its vtable

Where the functions of an interface are numbered `0`, `1`, ... in order, a number is the place of a
slot, and a dispatcher calls the slot that it has tested (`ServerBinding.run_eq`). A file can hold
other numbers. Then the dispatcher reads behind its vtable, or calls a slot that it has not tested,
unless the numbers that it lets through are places all the same (`slotsSafe_iff`). A function with
the largest number has no dispatcher.
-/

namespace Sidlc

open CValue

/-! ### Bindings -/

section Bindings

variable {abi : ArchAbi} {node : InterfaceNode}

theorem ServerBinding.vtableFields_eq (s : ServerBinding abi node) :
    s.vtableFields = (functionsOf node.abiversions).map (vtableField node.prefixStr) := by
  have h := s.header
  unfold generateHeader at h
  split_ifs at h
  split at h
  · split_ifs at h
  · simp only [Except.ok.injEq, Header.server.injEq] at h
    rw [← h.1, (headerBuffers_spec node).2.2]

theorem ServerBinding.map_name_vtableFields (s : ServerBinding abi node) :
    s.vtableFields.map FunctionDeclaration.name
      = (functionsOf node.abiversions).map FunctionNode.name := by
  rw [s.vtableFields_eq, List.map_map]
  rfl

theorem ServerBinding.length_vtableFields (s : ServerBinding abi node) :
    s.vtableFields.length = (functionsOf node.abiversions).length := by
  rw [s.vtableFields_eq, List.length_map]

theorem ServerBinding.dispatcher_spec (s : ServerBinding abi node) :
    (∀ f ∈ functionsOf node.abiversions, f.id.toNat < 2 ^ 32 - 1) ∧ s.dispatcher =
      { bound := node.abiversions.foldl visitSpan 0
        argSlotCount := abi.argSlotCount
        cases := (((functionsOf node.abiversions).foldl placeFunction []).filterMap id).map
          (dispatchCase abi node.prefixStr (typeValueInfos node)) } := by
  have h := s.source
  unfold generateModuleSource at h
  split_ifs at h
  -- without the table there is no dispatcher
  obtain ⟨table, htable, hdispatcher⟩ := StateExcept.except_bind_eq_ok.1 h
  have hfold : (functionsOf node.abiversions).foldlM visitFunction [] = .ok table := htable
  rw [foldlM_visitFunction] at hfold
  split_ifs at hfold with hids
  obtain rfl := Except.ok.inj hfold
  exact ⟨hids, (Except.ok.inj hdispatcher).symm⟩

theorem ServerBinding.toNat_id_lt (s : ServerBinding abi node) :
    ∀ f ∈ functionsOf node.abiversions, f.id.toNat < 2 ^ 32 - 1 :=
  s.dispatcher_spec.1

theorem ServerBinding.dispatcher_eq (s : ServerBinding abi node) :
    s.dispatcher =
      { bound := node.abiversions.foldl visitSpan 0
        argSlotCount := abi.argSlotCount
        cases := (((functionsOf node.abiversions).foldl placeFunction []).filterMap id).map
          (dispatchCase abi node.prefixStr (typeValueInfos node)) } :=
  s.dispatcher_spec.2

theorem ClientBinding.user_eq (client : ClientBinding abi node) :
    client.user =
      { macros := (functionsOf node.abiversions).map fun f => ⟨ascii "FUNCID_" ++ f.name, f.id⟩
        functions := (functionsOf node.abiversions).map (clientStub abi node.prefixStr) } := by
  have h := client.source
  unfold generateUserSource at h
  split_ifs at h
  exact (Except.ok.inj h).symm

/-- A compiled interface has a binding for servers. -/
def ServerBinding.ofNormalized (h : node.Normalized) (habi : 2 < abi.maxRegArgs)
    (hids : ∀ f ∈ functionsOf node.abiversions, f.id.toNat < 2 ^ 32 - 1) :
    ServerBinding abi node where
  vtableFields := _
  argSlotCount := _
  dispatcher := _
  header := generateHeader_of_normalized h .SERVER habi
  source := generateModuleSource_of_normalized h habi hids

/-- A compiled interface has a binding for clients. -/
def ClientBinding.ofNormalized (h : node.Normalized) : ClientBinding abi node where
  user := _
  source := generateUserSource_of_normalized h

end Bindings

/-! ### Numbers that are places -/

/-- The functions are numbered from `0` on, in thirty-two bits, and have names of their own. -/
structure Placed (fs : List FunctionNode) : Prop where
  numbered : NumberedFrom 0 fs
  length_lt : fs.length < 2 ^ 32
  nodup : (fs.map FunctionNode.name).Nodup

namespace Placed

variable {fs : List FunctionNode}

theorem toNat_id (h : Placed fs) {k : Nat} {f : FunctionNode} (hk : fs[k]? = some f) :
    f.id.toNat = k :=
  toNat_id_of_numberedFrom h.numbered h.length_lt hk

theorem getElem?_id (h : Placed fs) {f : FunctionNode} (hf : f ∈ fs) :
    fs[f.id.toNat]? = some f := by
  obtain ⟨k, hk⟩ := List.mem_iff_getElem?.1 hf
  rwa [h.toNat_id hk]

theorem mono {gs : List FunctionNode} (h : Placed gs) (hle : fs <+: gs) : Placed fs := by
  obtain ⟨more, rfl⟩ := hle
  refine ⟨(numberedFrom_append.1 h.numbered).1, ?_, ?_⟩
  · have hlt := h.length_lt
    rw [List.length_append] at hlt
    omega
  · have hnodup := h.nodup
    rw [List.map_append] at hnodup
    exact hnodup.of_append_left

end Placed

/-! ### The table of the functions -/

/-- Every function of the table stands at its number. -/
def Indexed (table : List (Option FunctionNode)) : Prop :=
  ∀ (k : Nat) (f : FunctionNode), table[k]?.join = some f → f.id.toNat = k

/-- The function at a place of a table. -/
theorem join_getElem?_set (table : List (Option FunctionNode)) (i k : Nat) (f : FunctionNode)
    (hi : i < table.length) :
    (table.set i (some f))[k]?.join = if k = i then some f else table[k]?.join := by
  rw [List.getElem?_set]
  split_ifs with h h' h'
  · rfl
  · exact absurd h.symm h'
  · exact absurd h'.symm h
  · rfl

/-- `visit(FunctionNode &)` puts the function at its number and leaves the other places. -/
theorem join_getElem?_placeFunction (table : List (Option FunctionNode)) (f : FunctionNode)
    (k : Nat) :
    (placeFunction table f)[k]?.join = if k = f.id.toNat then some f else table[k]?.join := by
  have hplace (n : Nat) : (table ++ List.replicate n none)[k]?.join = table[k]?.join := by
    by_cases hk : k < table.length
    · rw [List.getElem?_append_left hk]
    · rw [List.getElem?_append_right (by omega), List.getElem?_replicate,
        List.getElem?_eq_none (by omega : table.length ≤ k)]
      split_ifs <;> rfl
  rw [placeFunction, join_getElem?_set _ _ _ _ (by
    rw [List.length_append, List.length_replicate]; omega), hplace]

/-- The table holds the last function with each number. -/
theorem join_getElem?_foldl_placeFunction (fs : List FunctionNode) (k : Nat) :
    (fs.foldl placeFunction [])[k]?.join = fs.reverse.find? fun f => f.id.toNat = k := by
  induction fs using List.reverseRecOn with
  | nil => rfl
  | append_singleton fs f ih =>
    rw [List.foldl_append, List.foldl_cons, List.foldl_nil, List.reverse_append,
      List.reverse_singleton, List.singleton_append, List.find?_cons,
      join_getElem?_placeFunction, ih]
    by_cases hk : k = f.id.toNat
    · rw [if_pos hk, decide_eq_true hk.symm]
    · rw [if_neg hk, decide_eq_false (Ne.symm hk)]

theorem indexed_foldl_placeFunction (fs : List FunctionNode) :
    Indexed (fs.foldl placeFunction []) := by
  intro k f hk
  rw [join_getElem?_foldl_placeFunction] at hk
  exact of_decide_eq_true (List.find?_some hk :)

theorem join_map_some {α : Type} (o : Option α) : (o.map some).join = o := by
  cases o <;> rfl

theorem Placed.indexed {fs : List FunctionNode} (h : Placed fs) : Indexed (fs.map some) := by
  intro k f hk
  rw [List.getElem?_map, join_map_some] at hk
  exact h.toNat_id hk

/-- Among the functions of a table, the one with a number is found at its place. -/
theorem find?_label {table : List (Option FunctionNode)} (h : Indexed table) (abi : ArchAbi)
    (pfx : Bytes) (infos : TypeValueInfos) (funcid : UInt32) :
    (((table.filterMap id).map (dispatchCase abi pfx infos)).find? fun c => c.label = funcid)
      = table[funcid.toNat]?.join.map (dispatchCase abi pfx infos) := by
  rw [List.find?_map]
  refine congrArg (Option.map _) ?_
  show (table.filterMap id).find? (fun f => decide (f.id = funcid)) = _
  cases hplace : table[funcid.toNat]?.join with
  | none =>
    rw [List.find?_eq_none]
    intro f hf hlabel
    obtain ⟨slot, hslot, rfl⟩ := List.mem_filterMap.1 hf
    obtain ⟨k, hk⟩ := List.mem_iff_getElem?.1 hslot
    have hjoin : table[k]?.join = some f := by rw [hk]; rfl
    rw [← of_decide_eq_true hlabel, h k f hjoin, hjoin] at hplace
    cases hplace
  | some f =>
    -- no other function of the table has the number
    have hunique : ∀ g ∈ table.filterMap id, g.id = funcid → g = f := by
      intro g hg hid
      obtain ⟨slot, hslot, rfl⟩ := List.mem_filterMap.1 hg
      obtain ⟨k, hk⟩ := List.mem_iff_getElem?.1 hslot
      have hjoin : table[k]?.join = some g := by rw [hk]; rfl
      rw [← hid, h k g hjoin, hjoin] at hplace
      exact Option.some.inj hplace
    have hmem : f ∈ table.filterMap id :=
      List.mem_filterMap.2 ⟨some f, List.mem_of_getElem? (Option.join_eq_some_iff.1 hplace), rfl⟩
    have hid : f.id = funcid := UInt32.toNat_inj.1 (h _ _ hplace)
    cases hfound : (table.filterMap id).find? fun f => decide (f.id = funcid) with
    | none => exact absurd (decide_eq_true hid) (List.find?_eq_none.1 hfound f hmem)
    | some g =>
      rw [hunique g (List.mem_of_find?_eq_some hfound)
        (of_decide_eq_true (List.find?_some hfound :))]

section Server

variable {abi : ArchAbi} {node : InterfaceNode} {s : ServerBinding abi node}

theorem ServerBinding.toNat_bound (hplaced : Placed (functionsOf node.abiversions)) :
    s.dispatcher.bound.toNat = (functionsOf node.abiversions).length := by
  rw [s.dispatcher_eq]
  show (node.abiversions.foldl visitSpan 0).toNat = _
  rw [foldl_visitSpan hplaced.numbered, UInt32.toNat_ofNat', Nat.mod_eq_of_lt hplaced.length_lt]

/-- `switch` takes the case of the function at that place. -/
theorem ServerBinding.caseOf_eq (hplaced : Placed (functionsOf node.abiversions))
    (funcid : UInt32) :
    s.caseOf funcid = (functionsOf node.abiversions)[funcid.toNat]?.map
      (dispatchCase abi node.prefixStr (typeValueInfos node)) := by
  have hcases : s.dispatcher.cases = (((functionsOf node.abiversions).map some).filterMap id).map
      (dispatchCase abi node.prefixStr (typeValueInfos node)) := by
    rw [s.dispatcher_eq, ← foldl_placeFunction hplaced.numbered hplaced.length_lt]
  rw [caseOf, hcases, find?_label hplaced.indexed, List.getElem?_map, join_map_some]

/-- The field that a case calls is the slot that has been tested for it. -/
theorem ServerBinding.slotOf_name (hplaced : Placed (functionsOf node.abiversions))
    {f : FunctionNode} (hf : f ∈ functionsOf node.abiversions) :
    s.slotOf f.name = f.id.toNat := by
  rw [slotOf, s.map_name_vtableFields]
  exact idxOf_name_of_numberedFrom hplaced.numbered hplaced.length_lt hplaced.nodup hf

/-- **A dispatcher hands a call to the slot of its function**, when the server has one, and says
otherwise that the function is not implemented: it neither reads behind the vtable nor calls
`NULL`. -/
theorem ServerBinding.run_eq (hplaced : Placed (functionsOf node.abiversions)) (M : ServerMachine)
    (s : ServerBinding abi node) {vtable : VTable} (hlength : vtable.length = s.vtableFields.length)
    (funcid : UInt32) (words : List Value) (m : Memory) :
    s.run M (some vtable) funcid (some words) m =
      match (functionsOf node.abiversions)[funcid.toNat]?, vtable[funcid.toNat]?.join with
      | some f, some handler => (dispatchCase abi node.prefixStr (typeValueInfos node) f).run
          M.toMachine handler words m
      | _, _ => some ⟨M.statusNotImplemented, m, []⟩ := by
  rw [s.length_vtableFields] at hlength
  have hbound := toNat_bound (s := s) hplaced
  rw [run]
  simp only [UInt32.le_iff_toNat_le, hbound]
  by_cases hlt : funcid.toNat < (functionsOf node.abiversions).length
  · obtain ⟨f, hf⟩ : ∃ f, (functionsOf node.abiversions)[funcid.toNat]? = some f :=
      ⟨_, List.getElem?_eq_getElem hlt⟩
    obtain ⟨slot, hslot⟩ : ∃ slot, vtable[funcid.toNat]? = some slot :=
      ⟨_, List.getElem?_eq_getElem (by omega)⟩
    rw [if_neg (by omega), hslot]
    cases slot with
    | none => simp [hf]
    | some handler =>
      have hplace : s.slotOf (dispatchCase abi node.prefixStr (typeValueInfos node) f).callee
          = funcid.toNat :=
        (slotOf_name hplaced (List.mem_of_getElem? hf)).trans (hplaced.toNat_id hf)
      simp only [Option.isNone_some, Bool.false_eq_true, if_false, caseOf_eq hplaced, hf,
        Option.map_some, hplace, hslot, Option.join_some]
      rfl
  · rw [if_pos (by omega), List.getElem?_eq_none (by omega)]

end Server

/-! ### Safety -/

/-- The vtable is read inside, and only slots that have been tested are called. -/
structure SlotsSafe (events : List SlotEvent) : Prop where
  inside : ∀ i, .outside i ∉ events
  tested : ∀ before i after, events = before ++ .called i :: after → .tested i false ∈ before

theorem slotsSafe_nil : SlotsSafe [] :=
  ⟨fun _ => List.not_mem_nil, fun before _ _ h => by simp at h⟩

theorem slotsSafe_tested (i : Nat) (isNull : Bool) : SlotsSafe [.tested i isNull] := by
  refine ⟨fun _ h => by simp at h, fun before j after h => ?_⟩
  have hmem : SlotEvent.called j ∈ before ++ .called j :: after := by simp
  rw [← h] at hmem
  simp at hmem

theorem slotsSafe_called_iff {i j : Nat} :
    SlotsSafe [.tested i false, .called j] ↔ i = j := by
  constructor
  · intro h
    have hmem := h.tested [.tested i false] j [] rfl
    simp only [List.mem_singleton, SlotEvent.tested.injEq, and_true] at hmem
    exact hmem.symm
  · rintro rfl
    refine ⟨fun _ h => by simp at h, fun before j after h => ?_⟩
    -- the call is the second event
    rcases before with _ | ⟨e, _ | ⟨e', before⟩⟩
    · simp at h
    · simp only [List.singleton_append, List.cons.injEq, SlotEvent.called.injEq] at h
      rw [← h.1, ← h.2.1]
      exact List.mem_singleton_self _
    · simp at h

/-- The dispatcher is safe for every vtable of its type, whatever it is called with. -/
def ServerBinding.Safe {abi : ArchAbi} {node : InterfaceNode} (s : ServerBinding abi node) : Prop :=
  ∀ (vtable : VTable) (funcid : UInt32) (words : List Value),
    vtable.length = s.vtableFields.length → SlotsSafe (s.slotEvents vtable funcid words)

/-- The last function with a number. -/
def lastWith (fs : List FunctionNode) (k : Nat) : Option FunctionNode :=
  fs.reverse.find? fun f => f.id.toNat = k

/-- The numbers up to that of the last function are places of the vtable: a function that has one of
them, the last one where several have it, stands there. -/
def NumbersArePlaces (fs : List FunctionNode) : Prop :=
  ∀ last, fs.getLast? = some last → last.id.toNat < fs.length ∧
    ∀ k ≤ last.id.toNat, ∀ f, lastWith fs k = some f → fs[k]? = some f

theorem foldl_visitSpan_eq (nodes : List AbiversionNode) (span : UInt32) :
    nodes.foldl visitSpan span = match (functionsOf nodes).getLast? with
      | some last => last.id + 1
      | none => span := by
  induction nodes using List.reverseRecOn with
  | nil => rfl
  | append_singleton nodes node ih =>
    have hnode : functionsOf [node] = node.functions := List.flatMap_singleton _ _
    rw [List.foldl_append, List.foldl_cons, List.foldl_nil, functionsOf_append, hnode, visitSpan,
      List.getLast?_append, ih]
    cases node.functions.getLast? <;> rfl

section Safety

variable {abi : ArchAbi} {node : InterfaceNode} {s : ServerBinding abi node}

/-- A function stands where its name is found. -/
theorem ServerBinding.getElem?_iff_slotOf
    (hnames : ((functionsOf node.abiversions).map FunctionNode.name).Nodup) {f : FunctionNode}
    (hf : f ∈ functionsOf node.abiversions) (k : Nat) :
    (functionsOf node.abiversions)[k]? = some f ↔ s.slotOf f.name = k := by
  have hslot (j : Nat) (hj : (functionsOf node.abiversions)[j]? = some f) :
      s.slotOf f.name = j := by
    obtain ⟨hlt, hget⟩ := List.getElem?_eq_some_iff.1 hj
    have hlen : j < ((functionsOf node.abiversions).map FunctionNode.name).length := by
      rwa [List.length_map]
    have hname : ((functionsOf node.abiversions).map FunctionNode.name)[j] = f.name := by
      rw [List.getElem_map, hget]
    rw [slotOf, s.map_name_vtableFields, ← hname, hnames.idxOf_getElem]
  constructor
  · exact hslot k
  · rintro rfl
    obtain ⟨j, hj⟩ := List.mem_iff_getElem?.1 hf
    rwa [hslot j hj]

theorem ServerBinding.caseOf_eq_lastWith (funcid : UInt32) :
    s.caseOf funcid = (lastWith (functionsOf node.abiversions) funcid.toNat).map
      (dispatchCase abi node.prefixStr (typeValueInfos node)) := by
  rw [caseOf, s.dispatcher_eq]
  show List.find? _ (List.map _ _) = _
  rw [find?_label (indexed_foldl_placeFunction _), join_getElem?_foldl_placeFunction]
  rfl

/-- The events of a number that is let through and has a slot. -/
theorem ServerBinding.slotEvents_eq
    (hnames : ((functionsOf node.abiversions).map FunctionNode.name).Nodup) {vtable : VTable}
    (hlength : vtable.length = s.vtableFields.length) {funcid : UInt32}
    (hbound : ¬ s.dispatcher.bound ≤ funcid) {slot : Option Handler}
    (hslot : vtable[funcid.toNat]? = some slot) (words : List Value) :
    s.slotEvents vtable funcid words = .tested funcid.toNat slot.isNone ::
      match lastWith (functionsOf node.abiversions) funcid.toNat with
      | none => []
      | some f =>
        if slot.isNone = true ∨
            (dispatchCase abi node.prefixStr (typeValueInfos node) f).rejects words = true then []
        else [.called (s.slotOf f.name)] := by
  rw [slotEvents, if_neg hbound, hslot]
  simp only [caseOf_eq_lastWith]
  cases hlast : lastWith (functionsOf node.abiversions) funcid.toNat with
  | none => simp
  | some f =>
    have hf : f ∈ functionsOf node.abiversions :=
      List.mem_reverse.1 (List.mem_of_find?_eq_some hlast)
    -- every function has a field in the vtable
    have hplace : s.slotOf f.name < vtable.length := by
      obtain ⟨k, hk⟩ := List.mem_iff_getElem?.1 hf
      have hlt := (List.getElem?_eq_some_iff.1 hk).1
      rw [(getElem?_iff_slotOf hnames hf k).1 hk, hlength, s.length_vtableFields]
      exact hlt
    have hcallee : (dispatchCase abi node.prefixStr (typeValueInfos node) f).callee = f.name := rfl
    simp only [Option.map_some, hcallee, List.getElem?_eq_getElem hplace]
    by_cases hnull : slot.isNone = true
    · simp [hnull]
    · by_cases hrejects :
          (dispatchCase abi node.prefixStr (typeValueInfos node) f).rejects words = true
      · simp [hrejects]
      · simp [hnull, hrejects]

/-- The numbers up to that of the last function are let through. -/
theorem ServerBinding.bound_le_iff (s : ServerBinding abi node) {last : FunctionNode}
    (hlast : (functionsOf node.abiversions).getLast? = some last) (funcid : UInt32) :
    s.dispatcher.bound ≤ funcid ↔ last.id.toNat < funcid.toNat := by
  have hlt := s.toNat_id_lt last (List.mem_of_getLast? hlast)
  have hone : (1 : UInt32).toNat = 1 := rfl
  rw [s.dispatcher_eq, UInt32.le_iff_toNat_le]
  show (node.abiversions.foldl visitSpan 0).toNat ≤ _ ↔ _
  rw [foldl_visitSpan_eq, hlast, UInt32.toNat_add, hone, Nat.mod_eq_of_lt (by omega)]
  exact Nat.succ_le_iff

/-- Without functions nothing is let through. -/
theorem ServerBinding.bound_eq_zero (s : ServerBinding abi node)
    (hnone : (functionsOf node.abiversions).getLast? = none) : s.dispatcher.bound = 0 := by
  rw [s.dispatcher_eq]
  show node.abiversions.foldl visitSpan 0 = 0
  rw [foldl_visitSpan_eq, hnone]

/-- A server that implements every function. -/
def ServerBinding.fullVTable (s : ServerBinding abi node) : VTable :=
  List.replicate s.vtableFields.length (some fun _ m => (0, m))

theorem ServerBinding.length_fullVTable (s : ServerBinding abi node) :
    s.fullVTable.length = s.vtableFields.length :=
  List.length_replicate

/-- The last function of a safe dispatcher has a field: else the first number behind the vtable
is let through. -/
theorem ServerBinding.Safe.last_lt (hsafe : s.Safe) {last : FunctionNode}
    (hlast : (functionsOf node.abiversions).getLast? = some last) :
    last.id.toNat < (functionsOf node.abiversions).length := by
  by_contra hge
  have hlt := s.toNat_id_lt last (List.mem_of_getLast? hlast)
  have hsize := s.length_vtableFields
  have hnum : (UInt32.ofNat s.vtableFields.length).toNat = s.vtableFields.length :=
    UInt32.toNat_ofNat_of_lt' (by show _ < 2 ^ 32; omega)
  have hevents : s.slotEvents s.fullVTable (UInt32.ofNat s.vtableFields.length) []
      = [.outside s.vtableFields.length] := by
    rw [ServerBinding.slotEvents, if_neg (by rw [s.bound_le_iff hlast, hnum]; omega), hnum,
      List.getElem?_eq_none (by rw [s.length_fullVTable])]
  have houtside := (hsafe s.fullVTable (UInt32.ofNat s.vtableFields.length) []
    s.length_fullVTable).inside s.vtableFields.length
  rw [hevents] at houtside
  exact houtside (List.mem_singleton_self _)

/-- What a safe dispatcher calls for a number stands at that place. -/
theorem ServerBinding.Safe.getElem?_eq (hsafe : s.Safe)
    (hnames : ((functionsOf node.abiversions).map FunctionNode.name).Nodup) {last : FunctionNode}
    (hlast : (functionsOf node.abiversions).getLast? = some last) {k : Nat}
    (hk : k ≤ last.id.toNat) {f : FunctionNode}
    (hf : lastWith (functionsOf node.abiversions) k = some f) :
    (functionsOf node.abiversions)[k]? = some f := by
  have hplace := hsafe.last_lt hlast
  have hlt := s.toNat_id_lt last (List.mem_of_getLast? hlast)
  have hsize := s.length_vtableFields
  have hnum : (UInt32.ofNat k).toNat = k :=
    UInt32.toNat_ofNat_of_lt' (by show _ < 2 ^ 32; omega)
  have hslot : s.fullVTable[(UInt32.ofNat k).toNat]? = some (some fun _ m => (0, m)) := by
    rw [hnum, fullVTable, List.getElem?_replicate, if_pos (by omega)]
  have hrejects : (dispatchCase abi node.prefixStr (typeValueInfos node) f).rejects []
      = false := by
    simp [DispatchCase.rejects, DispatchCase.pointerArg]
  have hevents : s.slotEvents s.fullVTable (UInt32.ofNat k) []
      = [.tested k false, .called (s.slotOf f.name)] := by
    rw [slotEvents_eq hnames s.length_fullVTable (by rw [s.bound_le_iff hlast]; omega) hslot,
      hnum, hf]
    simp [hrejects]
  have hcall := hsafe s.fullVTable (UInt32.ofNat k) [] s.length_fullVTable
  rw [hevents, slotsSafe_called_iff] at hcall
  have hmem : f ∈ functionsOf node.abiversions :=
    List.mem_reverse.1 (List.mem_of_find?_eq_some hf)
  exact (getElem?_iff_slotOf hnames hmem k).2 hcall.symm

theorem ServerBinding.safe_of_numbersArePlaces (s : ServerBinding abi node)
    (hnames : ((functionsOf node.abiversions).map FunctionNode.name).Nodup)
    (hplaces : NumbersArePlaces (functionsOf node.abiversions)) : s.Safe := by
  intro vtable funcid words hlength
  by_cases hle : s.dispatcher.bound ≤ funcid
  · rw [slotEvents, if_pos hle]
    exact slotsSafe_nil
  cases hlast : (functionsOf node.abiversions).getLast? with
  | none => exact absurd (s.bound_eq_zero hlast ▸ UInt32.zero_le) hle
  | some last =>
    obtain ⟨hplace, hstands⟩ := hplaces last hlast
    have hsize := s.length_vtableFields
    have hlast_le := hle
    rw [s.bound_le_iff hlast] at hlast_le
    obtain ⟨slot, hslot⟩ : ∃ slot, vtable[funcid.toNat]? = some slot :=
      ⟨_, List.getElem?_eq_getElem (by omega)⟩
    rw [slotEvents_eq hnames hlength hle hslot]
    cases hf : lastWith (functionsOf node.abiversions) funcid.toNat with
    | none => exact slotsSafe_tested ..
    | some f =>
      simp only
      split_ifs with hstop
      · exact slotsSafe_tested ..
      · have hmem : f ∈ functionsOf node.abiversions :=
          List.mem_reverse.1 (List.mem_of_find?_eq_some hf)
        have hcallee := (getElem?_iff_slotOf (s := s) hnames hmem _).1
          (hstands _ (by omega) f hf)
        rw [not_or] at hstop
        rw [hcallee, Bool.eq_false_iff.2 hstop.1, slotsSafe_called_iff]

/-- **A dispatcher is safe exactly when the numbers that it lets through are places of its
vtable.** -/
theorem slotsSafe_iff (s : ServerBinding abi node)
    (hnames : ((functionsOf node.abiversions).map FunctionNode.name).Nodup) :
    s.Safe ↔ NumbersArePlaces (functionsOf node.abiversions) := by
  constructor
  · intro hsafe last hlast
    exact ⟨hsafe.last_lt hlast, fun k hk f hf => hsafe.getElem?_eq hnames hlast hk hf⟩
  · intro hplaces
    exact s.safe_of_numbersArePlaces hnames hplaces

/-- A revision of functions with these names and numbers. -/
def numberedRevision (functions : List (Bytes × UInt32)) : AbiversionNode :=
  { version := 0
    functions := functions.map fun (name, id) =>
      { name, annotations := [], parameters := [], id } }

/-- A file with such functions has a server. -/
theorem exists_serverBinding_numberedRevision {functions : List (Bytes × UInt32)}
    (hencodable : (numberedRevision functions).Encodable)
    (hids : ∀ f ∈ (numberedRevision functions).functions, f.id.toNat < 2 ^ 32 - 1) :
    ∃ bs interface, sifRead bs = .ok interface ∧
      functionsOf interface.abiversions = (numberedRevision functions).functions ∧
      Nonempty (ServerBinding x86_64 interface) := by
  have hread := @sifRead_sampleRead (numberedRevision functions) rfl hencodable
  have hfunctions : functionsOf (sampleRead (numberedRevision functions)).abiversions
      = (numberedRevision functions).functions := by
    rw [functionsOf_sampleRead]
    show (functions.map _).map _ = _
    rw [List.map_map]
    rfl
  have hsample := normalized_sampleInterface []
  have hnormalized : (sampleRead (numberedRevision functions)).Normalized :=
    ⟨hsample.name, rfl, hsample.uuidName, rfl, hsample.prefixStr, hsample.annotations⟩
  exact ⟨_, _, hread, hfunctions,
    ⟨.ofNormalized hnormalized (by decide) (by rwa [hfunctions])⟩⟩

/-- A function with the number `7` is no place, but the numbers `5` and `1` are safe: only those up
to the last one are let through. -/
theorem slotsSafe_iff_farNumber :
    (∃ bs interface, sifRead bs = .ok interface ∧
      (functionsOf interface.abiversions).map FunctionNode.id = [7] ∧
      ∃ s : ServerBinding x86_64 interface, ¬s.Safe) ∧
    ∃ bs interface, sifRead bs = .ok interface ∧
      (functionsOf interface.abiversions).map FunctionNode.id = [5, 1] ∧
      ∃ s : ServerBinding x86_64 interface, s.Safe := by
  constructor
  · obtain ⟨bs, interface, hread, hfunctions, ⟨s⟩⟩ :=
      @exists_serverBinding_numberedRevision [(ascii "f", 7)] (by decide) (by decide)
    refine ⟨bs, interface, hread, by rw [hfunctions]; rfl, s, fun hsafe => ?_⟩
    have hplaces := (slotsSafe_iff s (by rw [hfunctions]; decide)).1 hsafe
    rw [hfunctions] at hplaces
    exact absurd (hplaces _ rfl).1 (by decide)
  · obtain ⟨bs, interface, hread, hfunctions, ⟨s⟩⟩ :=
      @exists_serverBinding_numberedRevision [(ascii "f", 5), (ascii "g", 1)] (by decide)
        (by decide)
    refine ⟨bs, interface, hread, by rw [hfunctions]; rfl, s,
      (slotsSafe_iff s (by rw [hfunctions]; decide)).2 ?_⟩
    rw [hfunctions]
    rintro last hlast
    obtain rfl := Option.some.inj hlast
    refine ⟨by decide, fun k hk f hf => ?_⟩
    -- no function has the number zero
    have hcases : k = 0 ∨ k = 1 := by
      have hle : k ≤ 1 := hk
      omega
    rcases hcases with rfl | rfl
    · cases hf
    · exact hf

theorem Placed.numbersArePlaces {fs : List FunctionNode} (h : Placed fs) : NumbersArePlaces fs := by
  intro last hlast
  have hplace := h.getElem?_id (List.mem_of_getLast? hlast)
  refine ⟨(List.getElem?_eq_some_iff.1 hplace).1, fun k _ f hf => ?_⟩
  have hid : f.id.toNat = k := of_decide_eq_true (List.find?_some hf :)
  rw [← hid]
  exact h.getElem?_id (List.mem_reverse.1 (List.mem_of_find?_eq_some hf))

/-- Numbers that are places make a dispatcher safe. -/
theorem ServerBinding.safe_of_placed (hplaced : Placed (functionsOf node.abiversions))
    (s : ServerBinding abi node) : s.Safe :=
  (slotsSafe_iff s hplaced.nodup).2 hplaced.numbersArePlaces

end Safety

/-! ### Compiled artifacts -/

/-- The functions of a compiled artifact have the numbers of their places. -/
theorem Compiled.placed {sources : List Bytes} {artifact : Bytes} {interface : InterfaceNode}
    (h : Compiled sources artifact) (hread : sifRead artifact = .ok interface)
    (hlt : (functionsOf interface.abiversions).length < 2 ^ 32)
    (hnames : ((functionsOf interface.abiversions).map FunctionNode.name).Nodup) :
    interface.Normalized ∧ Placed (functionsOf interface.abiversions) := by
  obtain ⟨interface', ns, hartifact, -, hcount, hnumbered⟩ := h.spec
  obtain rfl : interface' = interface :=
    Except.ok.inj (hartifact.sifRead.symm.trans hread)
  exact ⟨hartifact.normalized, hnumbered.2 (idsFitFrom_of_lt (by omega)), hlt, hnames⟩

/-- **A server of a compiled artifact** with fewer than `2 ^ 32` functions of different names uses
its vtable safely, and every call ends in the case of its function with the handler in the slot of
that number, or in `STATUS_NOT_IMPLEMENTED`. -/
theorem compiled_dispatch (sources : List Bytes) (artifact : Bytes) (interface : InterfaceNode)
    (h : Compiled sources artifact) (hread : sifRead artifact = .ok interface)
    (hlt : (functionsOf interface.abiversions).length < 2 ^ 32)
    (hnames : ((functionsOf interface.abiversions).map FunctionNode.name).Nodup) (abi : ArchAbi)
    (habi : 2 < abi.maxRegArgs) :
    Nonempty (ServerBinding abi interface) ∧ ∀ s : ServerBinding abi interface, s.Safe ∧
      ∀ (M : ServerMachine) (vtable : VTable) (funcid : UInt32) (words : List Value) (m : Memory),
        vtable.length = s.vtableFields.length →
        s.run M (some vtable) funcid (some words) m =
          match (functionsOf interface.abiversions)[funcid.toNat]?, vtable[funcid.toNat]?.join with
          | some f, some handler =>
            (dispatchCase abi interface.prefixStr (typeValueInfos interface) f).run M.toMachine
              handler words m
          | _, _ => some ⟨M.statusNotImplemented, m, []⟩ := by
  obtain ⟨hnormalized, hplaced⟩ := h.placed hread hlt hnames
  have hids := toNat_id_lt_of_numberedFrom hplaced.numbered hplaced.length_lt
  exact ⟨⟨.ofNormalized hnormalized habi hids⟩, fun s => ⟨s.safe_of_placed hplaced,
    fun M vtable funcid words m hlength => s.run_eq hplaced M hlength funcid words m⟩⟩

/-- The text of a revision compiles to an artifact that has the revision. -/
theorem exists_compiled_revision {revision : AbiversionNode} (hversion : revision.version = 0)
    (hprintable : revision.Printable) (hencodable : revision.Encodable) :
    ∃ source artifact interface previousHash abiHash, Compiled [source] artifact ∧
      sifRead artifact = .ok interface ∧ interface.prefixStr = ascii "smp" ∧
      interface.abiversions = (renumber 0 [revision.bare]).map fun node =>
        node.stamp previousHash abiHash := by
  have hidentity : (sampleInterface []).IdentityEncodable := by decide
  have hwritable : Writable (sampleInterface [revision]) [] := by
    refine ⟨rfl, rfl, hidentity, List.cons_ne_nil _ _, ?_, ?_⟩
    · show 1 < 2 ^ 32
      omega
    · rw [allRevisions_nil]
      exact List.forall_mem_singleton.2 hencodable
  obtain ⟨artifact, hcompile, hartifact⟩ := compile_decompileInterface
    (normalized_sampleInterface [revision]) (List.forall_mem_singleton.2 hprintable) hwritable
    ⟨hversion, trivial⟩
  exact ⟨_, artifact, _, _, _, .first hcompile, hartifact.sifRead, rfl, rfl⟩

/-- Two functions, a revision without any, and a third function in a source that extends them: the
second slot is called for the number `1`, and the number `2` finds an empty slot. -/
theorem compiled_dispatch_sample :
    ∃ artifact interface,
      Compiled [sampleSource [namedRevision 0 [ascii "f", ascii "g"], namedRevision 1 []],
        sampleSource [namedRevision 2 [ascii "h"]]] artifact ∧
      sifRead artifact = .ok interface ∧
      ∃ s : ServerBinding x86_64 interface, s.Safe ∧ s.vtableFields.length = 3 ∧
        ∃ g, (functionsOf interface.abiversions)[1]? = some g ∧ g.name = ascii "g" ∧
          ∀ (M : ServerMachine) (handler : Handler) (words : List Value) (m : Memory),
            s.run M (some [none, some handler, none]) 1 (some words) m
              = (dispatchCase x86_64 interface.prefixStr (typeValueInfos interface) g).run
                M.toMachine handler words m ∧
            s.run M (some [none, some handler, none]) 2 (some words) m
              = some ⟨M.statusNotImplemented, m, []⟩ := by
  obtain ⟨artifact, h, hartifact⟩ := compiled_sampleSources
    [namedRevision 0 [ascii "f", ascii "g"], namedRevision 1 []] [namedRevision 2 [ascii "h"]]
    (by decide +kernel) (List.cons_ne_nil _ _) (by decide +kernel) (by decide)
  generalize hinterface : sampleCompiled _ = interface at hartifact
  have hfunctions : functionsOf interface.abiversions
      = [{ name := ascii "f", annotations := [], parameters := [], id := 0 },
        { name := ascii "g", annotations := [], parameters := [], id := 1 },
        { name := ascii "h", annotations := [], parameters := [], id := 2 }] := by
    rw [← hinterface]
    rfl
  obtain ⟨⟨s⟩, hruns⟩ := compiled_dispatch _ artifact interface h hartifact.sifRead
    (by rw [hfunctions]; decide) (by rw [hfunctions]; decide) x86_64 (by decide)
  obtain ⟨hsafe, hrun⟩ := hruns s
  have hlength : s.vtableFields.length = 3 := by
    rw [s.length_vtableFields, hfunctions]
    rfl
  refine ⟨artifact, interface, h, hartifact.sifRead, s, hsafe, hlength, _, by rw [hfunctions]; rfl,
    rfl, fun M handler words m => ⟨?_, ?_⟩⟩
  · rw [hrun M [none, some handler, none] 1 words m hlength.symm, hfunctions]
    rfl
  · rw [hrun M [none, some handler, none] 2 words m hlength.symm, hfunctions]
    rfl

end Sidlc
