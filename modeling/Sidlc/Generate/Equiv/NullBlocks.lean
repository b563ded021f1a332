import Sidlc.Generate.Equiv.OutParameters

/-!
# `NULL` blocks

A client can pass anything. What a dispatch case does with the pointers to the two blocks is
followed here statement by statement: the tests of `args[0]` and `args[1]` come first, and they are
written exactly when an initializer behind them needs the block (`checks_iff_follows`). But a local
variable with the name `args` makes the initializers behind it follow what it holds, which nothing
has tested (`nullSafe_iff`).
-/

namespace Sidlc

open CValue

/-! ### Statements and events -/

/-- The slot whose pointer an initializer follows: it reads through `args[0]`, or it forms the
address of a member from `args[1]`. The pointers of a parameter are passed on as they are. -/
def ArgExpression.follows : ArgExpression → Option Nat
  | .slot _ | .pointerSlot _ => none
  | .load _ | .inField _ => some 0
  | .outField _ => some 1

inductive DispatchStatement where
  /-- `if ((const void *)(uintptr_t)args[i] == NULL) { return STATUS_INVALID_VALUE; }` -/
  | testNull (i : Nat)
  /-- `T p = (T)init;`, where the case has declared the given names. -/
  | declare (l : DispatchLocal) (declared : List Bytes)
  /-- `return typed_vtable->callee(...)` -/
  | call

inductive DispatchEvent where
  /-- `args[i]` was tested and is not `NULL`. -/
  | passed (i : Nat)
  /-- `args[i]` was tested and is `NULL`, and `STATUS_INVALID_VALUE` is returned. -/
  | rejected (i : Nat)
  /-- Something was read through `args[i]`, or the address of a member formed from it. -/
  | followed (i : Nat)
  /-- What a local variable of the case holds was followed, under the name of `args` or a block. -/
  | strayed
  /-- The handler is called. -/
  | called
  deriving DecidableEq

/-- What an initializer does with a pointer. Each of them subscripts `args` or goes through a block,
so with a local variable in its place it follows what that one holds. -/
def DispatchLocal.event (l : DispatchLocal) (declared : List Bytes) : Option DispatchEvent :=
  if l.IsCaptured declared then some .strayed else l.init.follows.map .followed

/-- What the statements do, for the words in `args`. -/
def eventsOf (words : List Value) : List DispatchStatement → List DispatchEvent
  | [] => []
  | .testNull i :: rest =>
    if DispatchCase.pointerArg words i = some 0 then [.rejected i]
    else .passed i :: eventsOf words rest
  | .declare l declared :: rest => (l.event declared).toList ++ eventsOf words rest
  | .call :: _ => [.called]

/-- A content of the array `args`. -/
structure IsArgs (abi : ArchAbi) (words : List Value) : Prop where
  length_eq : words.length = abi.argSlotCount
  isRegister : ∀ w ∈ words, IsRegister w

namespace DispatchCase

variable (c : DispatchCase)

/-- The statements in the order in which they are written. The declarations of `in` and `out` in
front of them only convert the pointers. -/
def statements : List DispatchStatement :=
  (if c.checksIn then [.testNull 0] else []) ++ (if c.checksOut then [.testNull 1] else [])
    ++ (scopes [] c.locals).map (fun s => .declare s.1 s.2) ++ [.call]

def events (words : List Value) : List DispatchEvent :=
  eventsOf words c.statements

/-- What the initializers do. -/
def localEvents : List DispatchEvent :=
  (scopes [] c.locals).filterMap fun s => s.1.event s.2

/-- The case tests the block in the slot. -/
def Checks (i : Nat) : Prop :=
  i = 0 ∧ c.checksIn = true ∨ i = 1 ∧ c.checksOut = true

/-- An initializer of the case needs the block in the slot. -/
def Follows (i : Nat) : Prop :=
  .followed i ∈ c.localEvents

/-- What a case does with the pointers to its blocks, whatever is in `args`. -/
structure NullSafe (words : List Value) : Prop where
  /-- A block is used only behind its test. -/
  tested : ∀ before i after, c.events words = before ++ .followed i :: after → .passed i ∈ before
  /-- No other pointer is followed. -/
  blocksOnly : .strayed ∉ c.events words
  /-- A block that would be used and is `NULL` is rejected. -/
  rejects : ∀ i, c.Follows i → pointerArg words i = some 0 → ∃ j, .rejected j ∈ c.events words
  /-- Behind a rejection the handler is not called. -/
  notCalled : ∀ i, .rejected i ∈ c.events words → .called ∉ c.events words
  /-- Only a `NULL` block that would be used is rejected. -/
  needed : ∀ i, .rejected i ∈ c.events words → pointerArg words i = some 0 ∧
    ∀ other, (∀ j, pointerArg other j ≠ some 0) → .followed i ∈ c.events other
  /-- What the rejection returns. -/
  status : ∀ i, .rejected i ∈ c.events words → ∀ M, c.Compiles M → ∀ handler m,
    c.run M handler words m = some ⟨M.statusInvalidValue, m, []⟩

end DispatchCase

/-! ### Events of a case -/

section Events

variable {c : DispatchCase} {words : List Value}

/-- Behind the tests, the initializers and the call. -/
theorem eventsOf_locals (ss : List (DispatchLocal × List Bytes)) :
    eventsOf words (ss.map (fun s => .declare s.1 s.2) ++ [.call])
      = (ss.filterMap fun s => s.1.event s.2) ++ [.called] := by
  induction ss with
  | nil => rfl
  | cons s ss ih =>
    rw [List.map_cons, List.cons_append, eventsOf, ih, List.filterMap_cons]
    cases s.1.event s.2 <;> rfl

theorem event_eq_followed_or_strayed {l : DispatchLocal} {declared : List Bytes}
    {e : DispatchEvent} (h : l.event declared = some e) : e = .strayed ∨ ∃ i, e = .followed i := by
  unfold DispatchLocal.event at h
  split_ifs at h
  · exact .inl (Option.some.inj h).symm
  · obtain ⟨i, -, rfl⟩ := Option.map_eq_some_iff.1 h
    exact .inr ⟨i, rfl⟩

/-- The initializers neither test anything nor call the handler. -/
theorem rejected_notMem_localEvents (i : Nat) : .rejected i ∉ c.localEvents := by
  intro h
  obtain ⟨s, -, hs⟩ := List.mem_filterMap.1 h
  rcases event_eq_followed_or_strayed hs with h | ⟨j, h⟩
  · cases h
  · cases h

/-- The event of a test that is written and does not reject. -/
def passedIf (b : Bool) (i : Nat) : List DispatchEvent :=
  if b then [.passed i] else []

theorem followed_notMem_passedIf (b : Bool) (i j : Nat) : .followed j ∉ passedIf b i := by
  cases b <;> simp [passedIf]

theorem rejected_notMem_passedIf (b : Bool) (i j : Nat) : .rejected j ∉ passedIf b i := by
  cases b <;> simp [passedIf]

theorem called_notMem_passedIf (b : Bool) (i : Nat) : .called ∉ passedIf b i := by
  cases b <;> simp [passedIf]

theorem eventsOf_test {rest : List DispatchStatement} {b : Bool} {i : Nat} :
    eventsOf words ((if b then [.testNull i] else []) ++ rest) =
      if b = true ∧ DispatchCase.pointerArg words i = some 0 then [.rejected i]
      else passedIf b i ++ eventsOf words rest := by
  cases b with
  | false => simp [passedIf]
  | true =>
    by_cases hnull : DispatchCase.pointerArg words i = some 0
    · simp [eventsOf, hnull]
    · simp [eventsOf, passedIf]

/-- The events up to the first `NULL` block that is tested. -/
theorem events_eq (c : DispatchCase) (words : List Value) : c.events words =
    if c.checksIn = true ∧ DispatchCase.pointerArg words 0 = some 0 then [.rejected 0]
    else passedIf c.checksIn 0 ++
      if c.checksOut = true ∧ DispatchCase.pointerArg words 1 = some 0 then [.rejected 1]
      else passedIf c.checksOut 1 ++ (c.localEvents ++ [.called]) := by
  rw [DispatchCase.events, DispatchCase.statements, List.append_assoc, List.append_assoc,
    eventsOf_test, eventsOf_test, eventsOf_locals]
  rfl

theorem rejected_mem_events_iff {i : Nat} : .rejected i ∈ c.events words ↔
    (i = 0 ∧ c.checksIn = true ∧ DispatchCase.pointerArg words 0 = some 0) ∨
      (i = 1 ∧ ¬(c.checksIn = true ∧ DispatchCase.pointerArg words 0 = some 0) ∧
        c.checksOut = true ∧ DispatchCase.pointerArg words 1 = some 0) := by
  have hin := rejected_notMem_passedIf c.checksIn 0 i
  have hout := rejected_notMem_passedIf c.checksOut 1 i
  rw [events_eq]
  by_cases hnullIn : c.checksIn = true ∧ DispatchCase.pointerArg words 0 = some 0
  · rw [if_pos hnullIn, List.mem_singleton, DispatchEvent.rejected.injEq]
    exact ⟨fun h => .inl ⟨h, hnullIn⟩, fun h => h.elim And.left fun h => absurd hnullIn h.2.1⟩
  · rw [if_neg hnullIn, List.mem_append, or_iff_right hin, or_iff_right fun h => hnullIn h.2]
    by_cases hnullOut : c.checksOut = true ∧ DispatchCase.pointerArg words 1 = some 0
    · rw [if_pos hnullOut, List.mem_singleton, DispatchEvent.rejected.injEq]
      exact ⟨fun h => ⟨h, hnullIn, hnullOut⟩, And.left⟩
    · rw [if_neg hnullOut, List.mem_append, or_iff_right hout]
      constructor
      · intro h
        rcases List.mem_append.1 h with h | h
        · exact absurd h (rejected_notMem_localEvents i)
        · simp at h
      · exact fun h => absurd h.2.2 hnullOut

/-- An event that is not among the first ones comes behind them. -/
theorem prefix_of_append_cons_eq {α : Type} {first rest before after : List α} {a : α}
    (ha : a ∉ first) (h : first ++ rest = before ++ a :: after) : first <+: before := by
  rcases List.append_eq_append_iff.1 h with ⟨t, rfl, -⟩ | ⟨t, rfl, ht⟩
  · exact List.prefix_append first t
  · cases t with
    | nil =>
      exact ⟨[], by rw [List.append_nil, List.append_nil]⟩
    | cons b t =>
      obtain rfl := (List.cons.inj ht).1
      exact absurd (List.mem_append_right before List.mem_cons_self) ha

/-- The statements run in order, so a block is used behind its test. -/
theorem passed_mem_of_followed (h : ∀ i, c.Follows i → c.Checks i)
    {before after : List DispatchEvent}
    {i : Nat} (heq : c.events words = before ++ .followed i :: after) : .passed i ∈ before := by
  have hmem : .followed i ∈ c.events words := by
    rw [heq]
    exact List.mem_append_right before List.mem_cons_self
  rw [events_eq] at heq hmem
  have hnotIn := followed_notMem_passedIf c.checksIn 0 i
  have hnotOut := followed_notMem_passedIf c.checksOut 1 i
  -- nothing is used once a test has rejected
  by_cases hnullIn : c.checksIn = true ∧ DispatchCase.pointerArg words 0 = some 0
  · simp [hnullIn] at hmem
  rw [if_neg hnullIn] at heq hmem
  by_cases hnullOut : c.checksOut = true ∧ DispatchCase.pointerArg words 1 = some 0
  · simp [hnullOut, hnotIn] at hmem
  rw [if_neg hnullOut, ← List.append_assoc] at heq hmem
  have hnot : .followed i ∉ passedIf c.checksIn 0 ++ passedIf c.checksOut 1 := by
    rw [List.mem_append]
    exact fun hor => hor.elim hnotIn hnotOut
  have hfollows : c.Follows i := by
    rcases List.mem_append.1 hmem with hmem | hmem
    · exact absurd hmem hnot
    · show .followed i ∈ c.localEvents
      simpa using hmem
  -- both tests come before the first use
  refine (prefix_of_append_cons_eq hnot heq).subset ?_
  rcases h i hfollows with ⟨rfl, hchecks⟩ | ⟨rfl, hchecks⟩
  · rw [hchecks]
    exact List.mem_append_left _ (List.mem_singleton_self _)
  · rw [hchecks]
    exact List.mem_append_right _ (List.mem_singleton_self _)

theorem exists_rejected_of_checks {i : Nat} (hchecks : c.Checks i)
    (hnull : DispatchCase.pointerArg words i = some 0) : ∃ j, .rejected j ∈ c.events words := by
  by_cases hfirst : c.checksIn = true ∧ DispatchCase.pointerArg words 0 = some 0
  · exact ⟨0, rejected_mem_events_iff.2 (.inl ⟨rfl, hfirst⟩)⟩
  · rcases hchecks with ⟨rfl, hchecks⟩ | ⟨rfl, hchecks⟩
    · exact absurd ⟨hchecks, hnull⟩ hfirst
    · exact ⟨1, rejected_mem_events_iff.2 (.inr ⟨rfl, hfirst, hchecks, hnull⟩)⟩

theorem called_notMem_of_rejected {i : Nat} (hrejected : .rejected i ∈ c.events words) :
    .called ∉ c.events words := by
  rw [events_eq]
  rcases rejected_mem_events_iff.1 hrejected with ⟨-, hnull⟩ | ⟨-, hfirst, hnull⟩
  · rw [if_pos hnull]
    simp
  · rw [if_neg hfirst, if_pos hnull, List.mem_append]
    simp [called_notMem_passedIf]

theorem checks_of_rejected {i : Nat} (hrejected : .rejected i ∈ c.events words) :
    DispatchCase.pointerArg words i = some 0 ∧ c.Checks i := by
  rcases rejected_mem_events_iff.1 hrejected with ⟨rfl, hchecks, hnull⟩ | ⟨rfl, -, hchecks, hnull⟩
  · exact ⟨hnull, .inl ⟨rfl, hchecks⟩⟩
  · exact ⟨hnull, .inr ⟨rfl, hchecks⟩⟩

/-- Without `NULL` in the slots, everything that a case would use is used. -/
theorem followed_mem_events {i : Nat} (hfollows : c.Follows i)
    (hnone : ∀ j, DispatchCase.pointerArg words j ≠ some 0) : .followed i ∈ c.events words := by
  rw [events_eq, if_neg fun hboth => hnone 0 hboth.2, if_neg fun hboth => hnone 1 hboth.2]
  exact List.mem_append_right _ (List.mem_append_right _ (List.mem_append_left _ hfollows))

/-- So is a variable of the case that takes the place of one of the dispatcher's. -/
theorem strayed_mem_events (hstrayed : .strayed ∈ c.localEvents)
    (hnone : ∀ j, DispatchCase.pointerArg words j ≠ some 0) : .strayed ∈ c.events words := by
  rw [events_eq, if_neg fun hboth => hnone 0 hboth.2, if_neg fun hboth => hnone 1 hboth.2]
  exact List.mem_append_right _ (List.mem_append_right _ (List.mem_append_left _ hstrayed))

theorem strayed_mem_localEvents (hstrayed : .strayed ∈ c.events words) :
    .strayed ∈ c.localEvents := by
  have hpassed (b : Bool) (i : Nat) : .strayed ∉ passedIf b i := by cases b <;> simp [passedIf]
  rw [events_eq] at hstrayed
  split_ifs at hstrayed
  · simp at hstrayed
  · simp [hpassed] at hstrayed
  · simpa [hpassed] using hstrayed

theorem run_of_rejected {i : Nat} (hrejected : .rejected i ∈ c.events words) {M : Machine}
    (hcompiles : c.Compiles M) (handler : Handler) (m : Memory) :
    c.run M handler words m = some ⟨M.statusInvalidValue, m, []⟩ := by
  have hrejects : c.rejects words = true := by
    rw [DispatchCase.rejects, Bool.or_eq_true, Bool.and_eq_true, Bool.and_eq_true,
      decide_eq_true_eq, decide_eq_true_eq]
    rcases rejected_mem_events_iff.1 hrejected with ⟨-, hnull⟩ | ⟨-, -, hnull⟩
    · exact .inl hnull
    · exact .inr hnull
  exact run_of_rejects handler m hcompiles hrejects

/-- **A case is safe when it tests the blocks that it follows, and no others, and follows nothing
else.** -/
theorem nullSafe_of_checks (h : ∀ i, c.Checks i ↔ c.Follows i) (hown : .strayed ∉ c.localEvents)
    (words : List Value) : c.NullSafe words where
  tested _ _ _ heq := passed_mem_of_followed (fun i => (h i).2) heq
  blocksOnly hstrayed := hown (strayed_mem_localEvents hstrayed)
  rejects i hfollows hnull := exists_rejected_of_checks ((h i).2 hfollows) hnull
  notCalled _ hrejected := called_notMem_of_rejected hrejected
  needed i hrejected :=
    ⟨(checks_of_rejected hrejected).1, fun _ hnone =>
      followed_mem_events ((h i).1 (checks_of_rejected hrejected).2) hnone⟩
  status _ hrejected _ hcompiles handler m := run_of_rejected hrejected hcompiles handler m

end Events

/-! ### The generated cases -/

section Generated

variable {abi : ArchAbi} {pfx : Bytes} {infos : TypeValueInfos} {node : FunctionNode}

theorem event_localOf {q : Param} {names : List Bytes}
    (hcaptured : (localOf pfx (serverPartition abi infos node) q).IsCaptured names ↔
      Hides abi infos node q) :
    ((localOf pfx (serverPartition abi infos node) q).event names = some .strayed ↔
        Hides abi infos node q) ∧
      ∀ i, (localOf pfx (serverPartition abi infos node) q).event names = some (.followed i) ↔
        ¬Hides abi infos node q ∧
          (argExpression pfx (serverPartition abi infos node) q).follows = some i := by
  have hinit : (localOf pfx (serverPartition abi infos node) q).init
      = argExpression pfx (serverPartition abi infos node) q := rfl
  rw [← hcaptured, DispatchLocal.event, hinit]
  split_ifs with h
  · simp [h]
  · simp [h]

/-- **Something else than a block is followed where a parameter hides what is read.** -/
theorem strayed_notMem_iff (pfx : Bytes) :
    .strayed ∉ (dispatchCase abi pfx infos node).localEvents ↔ ReadsOwn abi infos node := by
  rw [readsOwn_iff_not_hides, DispatchCase.localEvents, List.mem_filterMap]
  constructor
  · intro h q hq hhides
    obtain ⟨names, hscope⟩ := exists_mem_scopes abi pfx infos hq
    obtain ⟨r, -, hlocal, hcaptured⟩ := mem_scopes_dispatchCase hscope
    obtain rfl : q = r := congrArg DispatchLocal.param hlocal
    exact h ⟨_, hscope, (event_localOf hcaptured).1.2 hhides⟩
  · rintro h ⟨⟨l, names⟩, hscope, hevent⟩
    obtain ⟨q, hq, rfl, hcaptured⟩ := mem_scopes_dispatchCase hscope
    exact h q hq ((event_localOf hcaptured).1.1 hevent)

theorem follows_dispatchCase_iff (hown : ReadsOwn abi infos node) {i : Nat} :
    (dispatchCase abi pfx infos node).Follows i ↔ ∃ p ∈ node.params,
      (argExpression pfx (serverPartition abi infos node) p).follows = some i := by
  rw [readsOwn_iff_not_hides] at hown
  rw [DispatchCase.Follows, DispatchCase.localEvents, List.mem_filterMap]
  constructor
  · rintro ⟨⟨l, names⟩, hscope, hevent⟩
    obtain ⟨q, hq, rfl, hcaptured⟩ := mem_scopes_dispatchCase hscope
    exact ⟨q, hq, (((event_localOf hcaptured).2 i).1 hevent).2⟩
  · rintro ⟨q, hq, hfollows⟩
    obtain ⟨names, hscope⟩ := exists_mem_scopes abi pfx infos hq
    obtain ⟨r, -, hlocal, hcaptured⟩ := mem_scopes_dispatchCase hscope
    obtain rfl : q = r := congrArg DispatchLocal.param hlocal
    exact ⟨_, hscope, ((event_localOf hcaptured).2 i).2 ⟨hown q hq, hfollows⟩⟩

/-- A case that is called with registers follows no pointer. -/
theorem follows_argExpression_of_callReg {s : Partition} (hreg : s.canUseCallReg = true)
    (p : Param) :
    (argExpression pfx s p).follows = none := by
  unfold argExpression
  rw [if_pos hreg]
  split_ifs <;> rfl

theorem checksOut_dispatchCase (hreg : (serverPartition abi infos node).canUseCallReg = false) :
    (dispatchCase abi pfx infos node).checksOut = true ↔
      1 < (serverPartition abi infos node).outParams.length := by
  show (!(serverPartition abi infos node).canUseCallReg && _) = true ↔ _
  rw [hreg, Bool.not_false, Bool.true_and, decide_eq_true_eq]

/-- The only input is a pointer, which is passed in place of a block. -/
def Partition.passesInput (s : Partition) : Bool :=
  match s.inParams with
  | [q] => q.node.type.isPtr
  | _ => false

theorem passesInput_eq_true_iff {s : Partition} :
    s.passesInput = true ↔ ∃ q, s.inParams = [q] ∧ q.node.type.isPtr = true := by
  unfold Partition.passesInput
  rcases s.inParams with _ | ⟨q, _ | ⟨r, rest⟩⟩
  · simp
  · simp
  · simp

/-- The pointer that the initializer of a parameter follows. -/
theorem follows_argExpression (hreg : (serverPartition abi infos node).canUseCallReg = false)
    (p : Param) :
    (argExpression pfx (serverPartition abi infos node) p).follows =
      if p.node.direction = .OUT then
        if (serverPartition abi infos node).outParams.length = 1 then none else some 1
      else if p ∈ (serverPartition abi infos node).peeledParams then none
      else if (serverPartition abi infos node).passesInput then none
      else some 0 := by
  rw [argExpression_of_block pfx hreg]
  by_cases hdir : p.node.direction = .OUT
  · rw [if_pos hdir, if_pos hdir]
    split_ifs <;> rfl
  · rw [if_neg hdir, if_neg hdir]
    by_cases hpeel : p ∈ (serverPartition abi infos node).peeledParams
    · rw [if_pos hpeel, if_pos hpeel]
      rfl
    · rw [if_neg hpeel, if_neg hpeel]
      unfold Partition.passesInput
      -- a single input is passed as it is or through a pointer, more of them in a block
      rcases (serverPartition abi infos node).inParams with _ | ⟨q, _ | ⟨r, rest⟩⟩
      · simp [ArgExpression.follows]
      · by_cases hptr : q.node.type.isPtr = true
        · simp [ArgExpression.follows, hptr]
        · simp [ArgExpression.follows, hptr]
      · simp [ArgExpression.follows]

/-- An initializer reads through `args[0]` exactly where the case tests it. -/
theorem checksIn_iff_follows (hown : ReadsOwn abi infos node)
    (hreg : (serverPartition abi infos node).canUseCallReg = false) :
    (dispatchCase abi pfx infos node).checksIn = true ↔
      (dispatchCase abi pfx infos node).Follows 0 := by
  have hspec := serverPartition_spec abi infos node
  rw [checksIn_dispatchCase hreg, follows_dispatchCase_iff hown]
  constructor
  · intro hblock
    -- what is tested is there for some parameter
    have hexists : ∃ p, p ∈ (serverPartition abi infos node).inParams := by
      refine List.exists_mem_of_ne_nil _ fun hnil => ?_
      rw [hnil] at hblock
      simp at hblock
    obtain ⟨p, hp⟩ := hexists
    obtain ⟨hdir, hpeel⟩ := hspec.direction_of_mem_in hp
    refine ⟨p, (hspec.mem_iff p).2 (.inl hp), ?_⟩
    rw [follows_argExpression hreg, if_neg hdir, if_neg hpeel, if_neg]
    intro hpasses
    obtain ⟨q, hq, hptr⟩ := passesInput_eq_true_iff.1 hpasses
    rw [hq] at hblock
    rcases hblock with hlen | ⟨r, hr, hno⟩
    · exact absurd hlen (lt_irrefl 1)
    · rw [List.cons.inj hr |>.1, hno] at hptr
      cases hptr
  · rintro ⟨p, hp, hfollows⟩
    rw [follows_argExpression hreg] at hfollows
    split_ifs at hfollows with hdir hlen hpeel hptr
    · cases hfollows
    · rcases (hspec.mem_iff p).1 hp with hin | hout | hpeeled
      · by_cases hlen : 1 < (serverPartition abi infos node).inParams.length
        · exact .inl hlen
        · -- the only input
          obtain ⟨q, hq⟩ : ∃ q, (serverPartition abi infos node).inParams = [q] := by
            have hpos := List.length_pos_of_mem hin
            exact List.length_eq_one_iff.1 (by omega)
          exact .inr ⟨q, hq, Bool.eq_false_iff.2 fun h => hptr
            (passesInput_eq_true_iff.2 ⟨q, hq, h⟩)⟩
      · exact absurd (hspec.direction_of_mem_out hout) hdir
      · exact absurd hpeeled hpeel

/-- An initializer forms an address from `args[1]` exactly where the case tests it. -/
theorem checksOut_iff_follows (hown : ReadsOwn abi infos node)
    (hreg : (serverPartition abi infos node).canUseCallReg = false) :
    (dispatchCase abi pfx infos node).checksOut = true ↔
      (dispatchCase abi pfx infos node).Follows 1 := by
  have hspec := serverPartition_spec abi infos node
  rw [checksOut_dispatchCase hreg, follows_dispatchCase_iff hown]
  constructor
  · intro hlen
    obtain ⟨p, hp⟩ := List.exists_mem_of_length_pos (Nat.lt_trans Nat.zero_lt_one hlen)
    refine ⟨p, (hspec.mem_iff p).2 (.inr (.inl hp)), ?_⟩
    rw [follows_argExpression hreg, if_pos (hspec.direction_of_mem_out hp), if_neg (by omega)]
  · rintro ⟨p, hp, hfollows⟩
    rw [follows_argExpression hreg] at hfollows
    split_ifs at hfollows with hdir hlen
    · have hmem : p ∈ (serverPartition abi infos node).outParams := by
        rw [hspec.outParams]
        exact List.mem_filter.2 ⟨hp, by simpa using hdir⟩
      have hpos := List.length_pos_of_mem hmem
      omega
    · cases hfollows

/-- **The case of a function tests exactly the blocks that it follows.** -/
theorem checks_iff_follows (pfx : Bytes) (hown : ReadsOwn abi infos node) (i : Nat) :
    (dispatchCase abi pfx infos node).Checks i ↔ (dispatchCase abi pfx infos node).Follows i := by
  by_cases hreg : (serverPartition abi infos node).canUseCallReg = true
  · -- registers alone: nothing is tested, and nothing followed
    have hfollows : ¬(dispatchCase abi pfx infos node).Follows i := by
      rw [follows_dispatchCase_iff hown]
      rintro ⟨p, -, hp⟩
      rw [follows_argExpression_of_callReg hreg] at hp
      cases hp
    rw [DispatchCase.Checks, checksIn_of_canUseCallReg hreg, checksOut_of_canUseCallReg hreg]
    simpa using hfollows
  · have hreg := Bool.eq_false_iff.2 hreg
    rw [DispatchCase.Checks, checksIn_iff_follows hown hreg, checksOut_iff_follows hown hreg]
    constructor
    · rintro (⟨rfl, h⟩ | ⟨rfl, h⟩)
      · exact h
      · exact h
    · intro h
      obtain ⟨p, -, hp⟩ := (follows_dispatchCase_iff hown).1 h
      rw [follows_argExpression hreg] at hp
      split_ifs at hp with hdir hlen hpeel hptr
      · obtain rfl := Option.some.inj hp
        exact .inr ⟨rfl, h⟩
      · obtain rfl := Option.some.inj hp
        exact .inl ⟨rfl, h⟩

/-- Some content of `args` has no `NULL` in it. -/
theorem exists_isArgs (abi : ArchAbi) :
    ∃ words, IsArgs abi words ∧ ∀ j, DispatchCase.pointerArg words j ≠ some 0 := by
  refine ⟨List.replicate abi.argSlotCount (.integer 1), ⟨List.length_replicate, ?_⟩, fun j h => ?_⟩
  · intro w hw
    exact ⟨1, List.eq_of_mem_replicate hw⟩
  · obtain ⟨word, hword, hnull⟩ := Option.bind_eq_some_iff.1 h
    rw [List.eq_of_mem_replicate (List.mem_of_getElem? hword)] at hnull
    exact absurd hnull (by decide)

/-- **A generated case follows no `NULL` block, whatever a client passes, exactly when no parameter
is called like the variable that it, or one behind it, is read from.** -/
theorem nullSafe_iff (abi : ArchAbi) (pfx : Bytes) (infos : TypeValueInfos) (node : FunctionNode) :
    (∀ words, IsArgs abi words → (dispatchCase abi pfx infos node).NullSafe words) ↔
      ReadsOwn abi infos node := by
  constructor
  · intro h
    obtain ⟨words, hargs, hnone⟩ := exists_isArgs abi
    refine (strayed_notMem_iff pfx).1 fun hstrayed => ?_
    exact (h words hargs).blocksOnly (strayed_mem_events hstrayed hnone)
  · intro hown words _
    exact nullSafe_of_checks (checks_iff_follows pfx hown) ((strayed_notMem_iff pfx).2 hown) words

/-- Behind an output `args`, the server reads through the first word of the block of output, which
it has not tested. -/
theorem not_nullSafe_argsHiding :
    ¬∀ words, IsArgs x86_64 words →
      (dispatchCase x86_64 (ascii "smp") registerBuiltinTypeInfos argsHiding).NullSafe words := by
  intro h
  have hargs : IsArgs x86_64 (List.replicate 4 (.integer 1)) :=
    ⟨rfl, fun w hw => ⟨1, List.eq_of_mem_replicate hw⟩⟩
  exact (h _ hargs).blocksOnly (by decide +kernel)

end Generated

end Sidlc
