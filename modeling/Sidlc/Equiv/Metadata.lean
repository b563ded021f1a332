import Sidlc.Compile
import Sidlc.Equiv.Sentences

/-!
# Correctness of the metadata normalisation

`normalize_interface_metadata` takes the annotations `@uuid` and `@prefix` of an interface for its
identity and keeps the others. It does not look at the revisions, and it undoes what printing does
to the identity (`normalizeInterfaceMetadata_header`).
-/

namespace Sidlc

open StateExcept

/-- The annotation states the identity of an interface. -/
def AnnotationNode.IsIdentity (node : AnnotationNode) : Prop :=
  node.name = ascii "uuid" ∨ node.name = ascii "prefix"

/-- An interface with an identity that can be printed, and none among its annotations. -/
structure InterfaceNode.Normalized (interface : InterfaceNode) : Prop where
  name : IsIdentifier interface.name
  hasUuid : interface.hasUuid = true
  uuidName : ∀ c ∈ interface.uuidName, c ≠ chr '"'
  hasPrefix : interface.hasPrefix = true
  prefixStr : ∀ c ∈ interface.prefixStr, c ≠ chr '"'
  annotations : ∀ node ∈ interface.annotations, node.Printable ∧ ¬ node.IsIdentity

/-! ### String arguments -/

theorem getStringLiteralArg_quoted {node : AnnotationNode} {index : Nat} {body : Bytes}
    (h : node.args[index]? = some (.string (quoted body))) :
    getStringLiteralArg node index = .ok body := by
  have hlength : (quoted body).length = body.length + 2 := by
    rw [quoted, List.length_cons, List.length_append, List.length_singleton]
  have hhead : (quoted body).head? = some (chr '"') := rfl
  have hlast : (quoted body).getLast? = some (chr '"') := by
    rw [quoted, ← List.cons_append, List.getLast?_append_of_ne_nil _ (by simp)]
    rfl
  have hvalid : ¬ ((quoted body).length < 2 ∨ (quoted body).head? ≠ some (chr '"') ∨
      (quoted body).getLast? ≠ some (chr '"')) := by
    rw [hlength, hhead, hlast]
    simp
  have hbody : ((quoted body).drop 1).take ((quoted body).length - 2) = body := by
    rw [hlength, Nat.add_sub_cancel, quoted, List.drop_one, List.tail_cons, List.take_left]
  simp only [getStringLiteralArg, h]
  rw [if_neg hvalid, hbody]

/-- The argument of an annotation that can be printed has no quotes inside. -/
theorem getStringLiteralArg_spec {node : AnnotationNode} (hnode : node.Printable) {index : Nat}
    {body : Bytes} (h : getStringLiteralArg node index = .ok body) : ∀ c ∈ body, c ≠ chr '"' := by
  cases harg : node.args[index]? with
  | none => simp [getStringLiteralArg, harg] at h
  | some arg =>
    have hprintable : arg.Printable := hnode.2 arg (List.mem_of_getElem? harg)
    cases arg with
    | number value => simp [getStringLiteralArg, harg] at h
    | identifier name => simp [getStringLiteralArg, harg] at h
    | string value =>
      obtain ⟨body', rfl, hbody⟩ := hprintable
      rw [getStringLiteralArg_quoted harg] at h
      obtain rfl := Except.ok.inj h
      exact hbody

/-! ### One annotation -/

namespace Metadata

/-- The identity that a `@uuid` annotation states. -/
def uuidOf (node : AnnotationNode) : Diagnosed (UuidBytes × Bytes) :=
  (takeUuid { node := {} } node).map fun m => (m.node.uuidNamespace, m.node.uuidName)

/-- The text that a `@prefix` annotation states. -/
def prefixOf (node : AnnotationNode) : Diagnosed Bytes :=
  (takePrefix { node := {} } node).map fun m => m.node.prefixStr

def withUuid (m : Metadata) (uuid : UuidBytes × Bytes) : Metadata :=
  { m with
    node := { m.node with uuidNamespace := uuid.1, uuidName := uuid.2, hasUuid := true }
    foundUuid := true }

def withPrefix (m : Metadata) (prefixStr : Bytes) : Metadata :=
  { m with node := { m.node with prefixStr, hasPrefix := true }, foundPrefix := true }

/-- What a `@uuid` annotation states does not depend on the annotations before it. -/
theorem takeUuid_eq (m : Metadata) (hm : m.foundUuid = false) (node : AnnotationNode) :
    m.takeUuid node = (uuidOf node).map m.withUuid := by
  simp only [uuidOf, takeUuid, hm, Bool.false_eq_true, if_false]
  by_cases hargs : node.args.length ≠ 2
  · simp only [if_pos hargs]
    rfl
  · simp only [if_neg hargs]
    cases getStringLiteralArg node 0 with
    | error e => rfl
    | ok namespaceStr =>
      cases getStringLiteralArg node 1 with
      | error e => rfl
      | ok nameStr =>
        change (if _ then _ else _) = Except.map _ (Except.map _ (if _ then _ else _))
        split_ifs with hvalid
        · rfl
        · cases Uuid.fromString namespaceStr <;> rfl

theorem takePrefix_eq (m : Metadata) (hm : m.foundPrefix = false) (node : AnnotationNode) :
    m.takePrefix node = (prefixOf node).map m.withPrefix := by
  simp only [prefixOf, takePrefix, hm, Bool.false_eq_true, if_false]
  by_cases hargs : node.args.length ≠ 1
  · simp only [if_pos hargs]
    rfl
  · simp only [if_neg hargs]
    cases getStringLiteralArg node 0 <;> rfl

theorem takeUuid_of_found {m : Metadata} (hm : m.foundUuid = true) (node : AnnotationNode) :
    m.takeUuid node = .error (ascii "Error: interface has duplicate @uuid annotations") :=
  if_pos hm

theorem takePrefix_of_found {m : Metadata} (hm : m.foundPrefix = true) (node : AnnotationNode) :
    m.takePrefix node = .error (ascii "Error: interface has duplicate @prefix annotations") :=
  if_pos hm

/-- What the loop has found is fit to be printed. -/
structure Sound (m : Metadata) : Prop where
  uuid : m.foundUuid = true → m.node.hasUuid = true ∧ ∀ c ∈ m.node.uuidName, c ≠ chr '"'
  prefixStr : m.foundPrefix = true → m.node.hasPrefix = true ∧ ∀ c ∈ m.node.prefixStr, c ≠ chr '"'
  remainingAnnotations : ∀ node ∈ m.remainingAnnotations, node.Printable ∧ ¬ node.IsIdentity

variable {m m' : Metadata} {node : AnnotationNode}

theorem takeUuid_spec (h : m.takeUuid node = .ok m') :
    ∃ namespaceUuid nameStr, getStringLiteralArg node 1 = .ok nameStr ∧
      m' = { m with
        node := { m.node with
          uuidNamespace := namespaceUuid
          uuidName := nameStr
          hasUuid := true }
        foundUuid := true } := by
  unfold takeUuid at h
  split_ifs at h with hfound hargs
  -- the arguments are read in order, and each may fail
  cases hnamespace : getStringLiteralArg node 0 with
  | error e =>
    rw [hnamespace] at h
    exact nomatch h
  | ok namespaceStr =>
    cases hname : getStringLiteralArg node 1 with
    | error e =>
      rw [hnamespace, hname] at h
      exact nomatch h
    | ok nameStr =>
      rw [hnamespace, hname] at h
      change (if _ then _ else _) = _ at h
      split_ifs at h with hvalid
      split at h
      · exact nomatch h
      · next namespaceUuid _ => exact ⟨namespaceUuid, nameStr, rfl, (Except.ok.inj h).symm⟩

theorem takePrefix_spec (h : m.takePrefix node = .ok m') :
    ∃ prefixStr, getStringLiteralArg node 0 = .ok prefixStr ∧
      m' = { m with
        node := { m.node with prefixStr, hasPrefix := true }
        foundPrefix := true } := by
  unfold takePrefix at h
  split_ifs at h with hfound hargs
  cases hpre : getStringLiteralArg node 0 with
  | error e =>
    rw [hpre] at h
    exact nomatch h
  | ok prefixStr =>
    rw [hpre] at h
    exact ⟨prefixStr, rfl, (Except.ok.inj h).symm⟩

theorem Sound.take (hm : m.Sound) (hnode : node.Printable) (h : m.take node = .ok m') :
    m'.Sound ∧ m'.node.name = m.node.name := by
  unfold Metadata.take at h
  split_ifs at h with hother huuid
  · obtain rfl := Except.ok.inj h
    refine ⟨⟨hm.uuid, hm.prefixStr, ?_⟩, rfl⟩
    rw [List.forall_mem_append, List.forall_mem_singleton]
    exact ⟨hm.remainingAnnotations, hnode, fun hid => hid.elim hother.1 hother.2⟩
  · obtain ⟨namespaceUuid, nameStr, hname, rfl⟩ := takeUuid_spec h
    exact ⟨⟨fun _ => ⟨rfl, getStringLiteralArg_spec hnode hname⟩, hm.prefixStr,
      hm.remainingAnnotations⟩, rfl⟩
  · obtain ⟨prefixStr, hpre, rfl⟩ := takePrefix_spec h
    exact ⟨⟨hm.uuid, fun _ => ⟨rfl, getStringLiteralArg_spec hnode hpre⟩,
      hm.remainingAnnotations⟩, rfl⟩

/-- The loop keeps what it has found sound. -/
theorem Sound.foldlM {nodes : List AnnotationNode} (hm : m.Sound)
    (hnodes : ∀ node ∈ nodes, node.Printable) (h : nodes.foldlM Metadata.take m = .ok m') :
    m'.Sound ∧ m'.node.name = m.node.name := by
  induction nodes generalizing m with
  | nil =>
    obtain rfl := Except.ok.inj h
    exact ⟨hm, rfl⟩
  | cons node nodes ih =>
    rw [List.forall_mem_cons] at hnodes
    obtain ⟨m₁, htake, hrest⟩ := foldlM_cons_eq_ok.1 h
    obtain ⟨hm₁, hname₁⟩ := hm.take hnodes.1 htake
    obtain ⟨hm', hname'⟩ := ih hm₁ hnodes.2 hrest
    exact ⟨hm', hname'.trans hname₁⟩

end Metadata

/-! ### Revisions do not matter -/

namespace InterfaceNode

/-- The interface with other revisions. -/
def withRevisions (interface : InterfaceNode) (abiversions : List AbiversionNode)
    (currentFuncid : UInt32) : InterfaceNode :=
  { interface with abiversions, currentFuncid }

theorem declare_eq_withRevisions (interface : InterfaceNode) (nodes : List AbiversionNode) :
    interface.declare nodes = interface.withRevisions (interface.declare nodes).abiversions
      (interface.declare nodes).currentFuncid :=
  rfl

end InterfaceNode

namespace Metadata

/-- The state of the loop over an interface with other revisions. -/
def withRevisions (m : Metadata) (abiversions : List AbiversionNode) (currentFuncid : UInt32) :
    Metadata :=
  { m with node := m.node.withRevisions abiversions currentFuncid }

variable (m : Metadata) (abiversions : List AbiversionNode) (currentFuncid : UInt32)

theorem takeUuid_withRevisions (node : AnnotationNode) :
    (m.withRevisions abiversions currentFuncid).takeUuid node
      = (m.takeUuid node).map (·.withRevisions abiversions currentFuncid) := by
  have hsame : (m.withRevisions abiversions currentFuncid).foundUuid = m.foundUuid := rfl
  cases hfound : m.foundUuid with
  | true =>
    rw [takeUuid_of_found hfound, takeUuid_of_found (hsame.trans hfound)]
    rfl
  | false =>
    rw [takeUuid_eq _ hfound, takeUuid_eq _ (hsame.trans hfound)]
    cases uuidOf node <;> rfl

theorem takePrefix_withRevisions (node : AnnotationNode) :
    (m.withRevisions abiversions currentFuncid).takePrefix node
      = (m.takePrefix node).map (·.withRevisions abiversions currentFuncid) := by
  have hsame : (m.withRevisions abiversions currentFuncid).foundPrefix = m.foundPrefix := rfl
  cases hfound : m.foundPrefix with
  | true =>
    rw [takePrefix_of_found hfound, takePrefix_of_found (hsame.trans hfound)]
    rfl
  | false =>
    rw [takePrefix_eq _ hfound, takePrefix_eq _ (hsame.trans hfound)]
    cases prefixOf node <;> rfl

theorem take_withRevisions (node : AnnotationNode) :
    (m.withRevisions abiversions currentFuncid).take node
      = (m.take node).map (·.withRevisions abiversions currentFuncid) := by
  unfold Metadata.take
  split_ifs with hother huuid
  · rfl
  · exact m.takeUuid_withRevisions ..
  · exact m.takePrefix_withRevisions ..

theorem foldlM_take_withRevisions (nodes : List AnnotationNode) :
    nodes.foldlM Metadata.take (m.withRevisions abiversions currentFuncid)
      = (nodes.foldlM Metadata.take m).map (·.withRevisions abiversions currentFuncid) := by
  induction nodes generalizing m with
  | nil => rfl
  | cons node nodes ih =>
    rw [List.foldlM_cons, List.foldlM_cons, take_withRevisions]
    cases m.take node with
    | error e => rfl
    | ok m' => exact ih m'

end Metadata

/-- The normalisation does not look at the revisions. -/
theorem normalizeInterfaceMetadata_withRevisions (interface : InterfaceNode)
    (abiversions : List AbiversionNode) (currentFuncid : UInt32) :
    normalizeInterfaceMetadata (interface.withRevisions abiversions currentFuncid)
      = (normalizeInterfaceMetadata interface).map
          (·.withRevisions abiversions currentFuncid) := by
  have hloop := Metadata.foldlM_take_withRevisions { node := interface } abiversions currentFuncid
    interface.annotations
  change (interface.annotations.foldlM Metadata.take
    (Metadata.withRevisions { node := interface } abiversions currentFuncid) >>= _) = _
  rw [hloop, normalizeInterfaceMetadata]
  cases interface.annotations.foldlM Metadata.take { node := interface } with
  | error e => rfl
  | ok m =>
    change (if _ then _ else _) = Except.map _ (if _ then _ else _)
    have huuid : (m.withRevisions abiversions currentFuncid).foundUuid = m.foundUuid := rfl
    have hpre : (m.withRevisions abiversions currentFuncid).foundPrefix = m.foundPrefix := rfl
    rw [huuid, hpre]
    split_ifs <;> rfl

/-! ### What comes out -/

/-- **A normalised interface has an identity**, no annotation that states one, and the revisions it
had before. -/
theorem normalizeInterfaceMetadata_spec {interface result : InterfaceNode}
    (hname : IsIdentifier interface.name)
    (hprintable : ∀ node ∈ interface.annotations, node.Printable)
    (h : normalizeInterfaceMetadata interface = .ok result) :
    result.Normalized ∧ result.name = interface.name ∧
      result.abiversions = interface.abiversions ∧
      result.currentFuncid = interface.currentFuncid := by
  have hself : interface.withRevisions interface.abiversions interface.currentFuncid = interface :=
    rfl
  -- the revisions are passed through, whatever they are
  have hrevisions : result
      = result.withRevisions interface.abiversions interface.currentFuncid := by
    have heq := normalizeInterfaceMetadata_withRevisions interface interface.abiversions
      interface.currentFuncid
    rw [hself, h] at heq
    exact Except.ok.inj heq
  have habiversions : result.abiversions
      = (result.withRevisions interface.abiversions interface.currentFuncid).abiversions :=
    congrArg _ hrevisions
  have hfuncid : result.currentFuncid
      = (result.withRevisions interface.abiversions interface.currentFuncid).currentFuncid :=
    congrArg _ hrevisions
  unfold normalizeInterfaceMetadata at h
  cases hloop : interface.annotations.foldlM Metadata.take { node := interface } with
  | error e =>
    rw [hloop] at h
    exact nomatch h
  | ok m =>
    -- what is found is well formed, annotation by annotation
    have hinit : Metadata.Sound { node := interface } :=
      ⟨fun hfound => absurd hfound (by simp), fun hfound => absurd hfound (by simp), by simp⟩
    obtain ⟨hm, hmname⟩ := hinit.foldlM hprintable hloop
    rw [hloop] at h
    change (if _ then _ else _) = _ at h
    split_ifs at h with huuid hpre
    have huuid' : m.foundUuid = true := by simpa using huuid
    have hpre' : m.foundPrefix = true := by simpa using hpre
    obtain rfl := Except.ok.inj h
    refine ⟨⟨?_, (hm.uuid huuid').1, (hm.uuid huuid').2, (hm.prefixStr hpre').1,
      (hm.prefixStr hpre').2, hm.remainingAnnotations⟩, hmname, habiversions, hfuncid⟩
    rw [hmname]
    exact hname

/-- Annotations that state no identity remain. -/
theorem Metadata.foldlM_take_of_not_isIdentity (m : Metadata) {nodes : List AnnotationNode}
    (h : ∀ node ∈ nodes, ¬ node.IsIdentity) :
    nodes.foldlM Metadata.take m
      = .ok { m with remainingAnnotations := m.remainingAnnotations ++ nodes } := by
  induction nodes generalizing m with
  | nil => rw [List.append_nil]; rfl
  | cons node nodes ih =>
    rw [List.forall_mem_cons] at h
    have htake : m.take node
        = .ok { m with remainingAnnotations := m.remainingAnnotations ++ [node] } :=
      if_pos ⟨fun hname => h.1 (.inl hname), fun hname => h.1 (.inr hname)⟩
    rw [foldlM_cons_of_ok htake, ih _ h.2, List.append_assoc, List.singleton_append]

/-- **The normalisation undoes the printing of the identity.** -/
theorem normalizeInterfaceMetadata_header {interface : InterfaceNode} (h : interface.Normalized)
    (firstFuncid : UInt32) :
    normalizeInterfaceMetadata (interface.header firstFuncid)
      = .ok (interface.withRevisions [] firstFuncid) := by
  have huuidName : ascii "uuid" ≠ ascii "prefix" := by decide +kernel
  have huuid (m : Metadata) (hm : m.foundUuid = false) :
      m.take { name := ascii "uuid"
               args := [.string (quoted (uuidToString interface.uuidNamespace)),
                 .string (quoted interface.uuidName)] }
        = .ok { m with
            node := { m.node with
              uuidNamespace := interface.uuidNamespace
              uuidName := interface.uuidName
              hasUuid := true }
            foundUuid := true } := by
    have hnamespace : getStringLiteralArg
        { name := ascii "uuid"
          args := [.string (quoted (uuidToString interface.uuidNamespace)),
            .string (quoted interface.uuidName)] } 0 = .ok (uuidToString interface.uuidNamespace) :=
      getStringLiteralArg_quoted rfl
    have hname : getStringLiteralArg
        { name := ascii "uuid"
          args := [.string (quoted (uuidToString interface.uuidNamespace)),
            .string (quoted interface.uuidName)] } 1 = .ok interface.uuidName :=
      getStringLiteralArg_quoted rfl
    have hvalid : Uuid.isValidUuid (uuidToString interface.uuidNamespace) = true :=
      Uuid.isValidUuid_toString _
    have hfrom : Uuid.fromString (uuidToString interface.uuidNamespace)
        = some interface.uuidNamespace := Uuid.fromString_toString _
    rw [Metadata.take, if_neg (by simp), if_pos rfl, Metadata.takeUuid, hm, if_neg (by simp),
      if_neg (by simp), hnamespace, hname]
    change (if _ then _ else _) = _
    rw [hvalid, hfrom]
    rfl
  have hpre (m : Metadata) (hm : m.foundPrefix = false) :
      m.take { name := ascii "prefix", args := [.string (quoted interface.prefixStr)] }
        = .ok { m with
            node := { m.node with prefixStr := interface.prefixStr, hasPrefix := true }
            foundPrefix := true } := by
    have hname : getStringLiteralArg
        { name := ascii "prefix", args := [.string (quoted interface.prefixStr)] } 0
          = .ok interface.prefixStr := getStringLiteralArg_quoted rfl
    rw [Metadata.take, if_neg (by simp), if_neg huuidName.symm, Metadata.takePrefix, hm,
      if_neg (by simp), if_neg (by simp), hname]
    rfl
  -- the other annotations only accumulate
  have hrest := fun m => Metadata.foldlM_take_of_not_isIdentity m fun node hnode =>
    (h.annotations node hnode).2
  have hannotations : (interface.header firstFuncid).annotations
      = interface.identityAnnotations ++ interface.annotations := rfl
  rw [normalizeInterfaceMetadata, hannotations, InterfaceNode.identityAnnotations, List.cons_append,
    List.cons_append, List.nil_append, foldlM_cons_of_ok (huuid _ rfl),
    foldlM_cons_of_ok (hpre _ rfl), hrest, InterfaceNode.withRevisions, h.hasUuid, h.hasPrefix]
  rfl

/-! ### The order of the annotations -/

instance (node : AnnotationNode) : Decidable node.IsIdentity :=
  inferInstanceAs (Decidable (_ ∨ _))

theorem ascii_uuid_ne : ascii "uuid" ≠ ascii "prefix" := by
  decide +kernel

namespace Metadata

variable {m m' : Metadata} {node : AnnotationNode}

theorem take_eq_takeUuid (hname : node.name = ascii "uuid") : m.take node = m.takeUuid node := by
  rw [take, if_neg (fun h => h.1 hname), if_pos hname]

theorem take_eq_takePrefix (hname : node.name = ascii "prefix") :
    m.take node = m.takePrefix node := by
  have hother : node.name ≠ ascii "uuid" := fun h => ascii_uuid_ne (h.symm.trans hname)
  rw [take, if_neg (fun h => h.2 hname), if_neg hother]

theorem take_other (h : ¬ node.IsIdentity) :
    m.take node = .ok { m with remainingAnnotations := m.remainingAnnotations ++ [node] } :=
  if_pos ⟨fun hname => h (.inl hname), fun hname => h (.inr hname)⟩

theorem take_uuid_eq_ok (hname : node.name = ascii "uuid") :
    m.take node = .ok m' ↔
      m.foundUuid = false ∧ ∃ uuid, uuidOf node = .ok uuid ∧ m' = m.withUuid uuid := by
  rw [take_eq_takeUuid hname]
  cases hfound : m.foundUuid with
  | true =>
    rw [takeUuid_of_found hfound]
    exact ⟨(nomatch ·), fun h => nomatch h.1⟩
  | false =>
    rw [takeUuid_eq m hfound]
    cases uuidOf node with
    | error e => exact ⟨(nomatch ·), fun ⟨_, _, h, _⟩ => nomatch h⟩
    | ok uuid =>
      refine ⟨fun h => ⟨rfl, uuid, rfl, (Except.ok.inj h).symm⟩, ?_⟩
      rintro ⟨-, _, ⟨⟩, rfl⟩
      rfl

theorem take_prefix_eq_ok (hname : node.name = ascii "prefix") :
    m.take node = .ok m' ↔
      m.foundPrefix = false ∧ ∃ text, prefixOf node = .ok text ∧ m' = m.withPrefix text := by
  rw [take_eq_takePrefix hname]
  cases hfound : m.foundPrefix with
  | true =>
    rw [takePrefix_of_found hfound]
    exact ⟨(nomatch ·), fun h => nomatch h.1⟩
  | false =>
    rw [takePrefix_eq m hfound]
    cases prefixOf node with
    | error e => exact ⟨(nomatch ·), fun ⟨_, _, h, _⟩ => nomatch h⟩
    | ok text =>
      refine ⟨fun h => ⟨rfl, text, rfl, (Except.ok.inj h).symm⟩, ?_⟩
      rintro ⟨-, _, ⟨⟩, rfl⟩
      rfl

/-- Two annotations of an identity can be exchanged. -/
theorem take_swap {a b : AnnotationNode} {m₁ m₂ : Metadata} (ha : a.IsIdentity) (hb : b.IsIdentity)
    (h₁ : m.take a = .ok m₁) (h₂ : m₁.take b = .ok m₂) :
    ∃ m₁', m.take b = .ok m₁' ∧ m₁'.take a = .ok m₂ := by
  rcases ha with ha | ha <;> rcases hb with hb | hb
  · obtain ⟨-, uuid, -, rfl⟩ := (take_uuid_eq_ok ha).1 h₁
    exact nomatch ((take_uuid_eq_ok hb).1 h₂).1
  · obtain ⟨hm, uuid, huuid, rfl⟩ := (take_uuid_eq_ok ha).1 h₁
    obtain ⟨hm', text, htext, rfl⟩ := (take_prefix_eq_ok hb).1 h₂
    exact ⟨_, (take_prefix_eq_ok hb).2 ⟨hm', text, htext, rfl⟩,
      (take_uuid_eq_ok ha).2 ⟨hm, uuid, huuid, rfl⟩⟩
  · obtain ⟨hm, text, htext, rfl⟩ := (take_prefix_eq_ok ha).1 h₁
    obtain ⟨hm', uuid, huuid, rfl⟩ := (take_uuid_eq_ok hb).1 h₂
    exact ⟨_, (take_uuid_eq_ok hb).2 ⟨hm', uuid, huuid, rfl⟩,
      (take_prefix_eq_ok ha).2 ⟨hm, text, htext, rfl⟩⟩
  · obtain ⟨-, text, -, rfl⟩ := (take_prefix_eq_ok ha).1 h₁
    exact nomatch ((take_prefix_eq_ok hb).1 h₂).1

theorem foldlM_take_perm {as bs : List AnnotationNode} (h : as.Perm bs)
    (has : ∀ a ∈ as, a.IsIdentity) (hfold : as.foldlM take m = .ok m') :
    bs.foldlM take m = .ok m' := by
  induction h generalizing m with
  | nil => exact hfold
  | cons a _ ih =>
    rw [List.forall_mem_cons] at has
    obtain ⟨m₁, htake, hrest⟩ := foldlM_cons_eq_ok.1 hfold
    exact foldlM_cons_eq_ok.2 ⟨m₁, htake, ih has.2 hrest⟩
  | swap a b as =>
    rw [List.forall_mem_cons, List.forall_mem_cons] at has
    obtain ⟨m₁, h₁, hrest⟩ := foldlM_cons_eq_ok.1 hfold
    obtain ⟨m₂, h₂, hrest⟩ := foldlM_cons_eq_ok.1 hrest
    obtain ⟨m₁', h₁', h₂'⟩ := take_swap has.1 has.2.1 h₁ h₂
    exact foldlM_cons_eq_ok.2 ⟨m₁', h₁', foldlM_cons_eq_ok.2 ⟨m₂, h₂', hrest⟩⟩
  | trans hab _ ih₁ ih₂ =>
    exact ih₂ (fun b hb => has b (hab.mem_iff.2 hb)) (ih₁ has hfold)

/-- The same identity, found in an interface with the annotations `bs`, with `as` remaining. -/
def withAnnotations (m : Metadata) (as bs : List AnnotationNode) : Metadata :=
  { m with node := { m.node with annotations := bs }, remainingAnnotations := as }

/-- An annotation of the identity does not look at the other annotations. -/
theorem take_withAnnotations (hnode : node.IsIdentity) (h : m.take node = .ok m')
    (as bs : List AnnotationNode) :
    (m.withAnnotations as bs).take node = .ok (m'.withAnnotations as bs) := by
  rcases hnode with hname | hname
  · obtain ⟨hm, uuid, huuid, rfl⟩ := (take_uuid_eq_ok hname).1 h
    exact (take_uuid_eq_ok hname).2 ⟨hm, uuid, huuid, rfl⟩
  · obtain ⟨hm, text, htext, rfl⟩ := (take_prefix_eq_ok hname).1 h
    exact (take_prefix_eq_ok hname).2 ⟨hm, text, htext, rfl⟩

theorem foldlM_take_withAnnotations {nodes : List AnnotationNode}
    (hnodes : ∀ node ∈ nodes, node.IsIdentity) (h : nodes.foldlM take m = .ok m')
    (as bs : List AnnotationNode) :
    nodes.foldlM take (m.withAnnotations as bs) = .ok (m'.withAnnotations as bs) := by
  induction nodes generalizing m with
  | nil =>
    obtain rfl := Except.ok.inj h
    rfl
  | cons node nodes ih =>
    rw [List.forall_mem_cons] at hnodes
    obtain ⟨m₁, htake, hrest⟩ := foldlM_cons_eq_ok.1 h
    exact foldlM_cons_eq_ok.2 ⟨_, take_withAnnotations hnodes.1 htake as bs, ih hnodes.2 hrest⟩

/-- The annotations of the identity among `nodes`. -/
def identities (nodes : List AnnotationNode) : List AnnotationNode :=
  nodes.filter fun node => node.IsIdentity

/-- The other annotations among `nodes`. -/
def others (nodes : List AnnotationNode) : List AnnotationNode :=
  nodes.filter fun node => ¬ node.IsIdentity

theorem forall_mem_identities (nodes : List AnnotationNode) :
    ∀ node ∈ identities nodes, node.IsIdentity :=
  fun _ hnode => by simpa using (List.mem_filter.1 hnode).2

theorem annotations_of_take (hnode : node.IsIdentity) (h : m.take node = .ok m') :
    m'.remainingAnnotations = m.remainingAnnotations ∧
      m'.node.annotations = m.node.annotations := by
  rcases hnode with hname | hname
  · obtain ⟨-, uuid, -, rfl⟩ := (take_uuid_eq_ok hname).1 h
    exact ⟨rfl, rfl⟩
  · obtain ⟨-, text, -, rfl⟩ := (take_prefix_eq_ok hname).1 h
    exact ⟨rfl, rfl⟩

/-- **The loop takes the identity out of the annotations** and keeps the others in their order. -/
theorem foldlM_take_eq_ok {nodes : List AnnotationNode} :
    nodes.foldlM take m = .ok m' ↔ ∃ m₁, (identities nodes).foldlM take m = .ok m₁ ∧
      m' = m₁.withAnnotations (m.remainingAnnotations ++ others nodes) m.node.annotations := by
  induction nodes generalizing m with
  | nil =>
    have hself : m.withAnnotations (m.remainingAnnotations ++ []) m.node.annotations = m := by
      rw [List.append_nil]
      rfl
    constructor
    · intro h
      obtain rfl := Except.ok.inj h
      exact ⟨m, rfl, hself.symm⟩
    · rintro ⟨m₁, h, rfl⟩
      obtain rfl := Except.ok.inj h
      exact congrArg Except.ok hself.symm
  | cons node nodes ih =>
    rw [foldlM_cons_eq_ok]
    by_cases hnode : node.IsIdentity
    · -- an identity annotation is taken, and leaves the others alone
      have hidentities : identities (node :: nodes) = node :: identities nodes :=
        List.filter_cons_of_pos (by simpa using hnode)
      have hothers : others (node :: nodes) = others nodes :=
        List.filter_cons_of_neg (by simpa using hnode)
      rw [hidentities, hothers]
      constructor
      · rintro ⟨m₁, htake, hrest⟩
        obtain ⟨m₂, hfold, rfl⟩ := ih.1 hrest
        obtain ⟨hremaining, hannotations⟩ := annotations_of_take hnode htake
        exact ⟨m₂, foldlM_cons_eq_ok.2 ⟨m₁, htake, hfold⟩, by rw [hremaining, hannotations]⟩
      · rintro ⟨m₂, h, rfl⟩
        obtain ⟨m₁, htake, hfold⟩ := foldlM_cons_eq_ok.1 h
        obtain ⟨hremaining, hannotations⟩ := annotations_of_take hnode htake
        exact ⟨m₁, htake, ih.2 ⟨m₂, hfold, by rw [hremaining, hannotations]⟩⟩
    · -- any other is kept, so the rest starts with one more
      have hidentities : identities (node :: nodes) = identities nodes :=
        List.filter_cons_of_neg (by simpa using hnode)
      have hothers : others (node :: nodes) = node :: others nodes :=
        List.filter_cons_of_pos (by simpa using hnode)
      rw [hidentities, hothers]
      constructor
      · rintro ⟨m₁, htake, hrest⟩
        obtain rfl := Except.ok.inj ((take_other hnode).symm.trans htake)
        obtain ⟨m₂, hfold, rfl⟩ := ih.1 hrest
        refine ⟨_, foldlM_take_withAnnotations (forall_mem_identities nodes) hfold
          m.remainingAnnotations m.node.annotations, ?_⟩
        simp [withAnnotations]
      · rintro ⟨m₂, hfold, rfl⟩
        refine ⟨_, take_other hnode,
          ih.2 ⟨_, foldlM_take_withAnnotations (forall_mem_identities nodes)
          hfold (m.remainingAnnotations ++ [node]) m.node.annotations, ?_⟩⟩
        simp [withAnnotations]

end Metadata

theorem normalizeInterfaceMetadata_eq_ok {interface result : InterfaceNode} :
    normalizeInterfaceMetadata interface = .ok result ↔
      ∃ m : Metadata, interface.annotations.foldlM Metadata.take { node := interface } = .ok m ∧
        m.foundUuid = true ∧ m.foundPrefix = true ∧
        result = { m.node with annotations := m.remainingAnnotations } := by
  rw [normalizeInterfaceMetadata]
  cases interface.annotations.foldlM Metadata.take { node := interface } with
  | error e => exact ⟨(nomatch ·), fun ⟨_, h, _⟩ => nomatch h⟩
  | ok m =>
    change (if _ then _ else if _ then _ else _) = _ ↔ _
    constructor
    · intro h
      split_ifs at h with huuid hpre
      exact ⟨m, rfl, by simpa using huuid, by simpa using hpre, (Except.ok.inj h).symm⟩
    · rintro ⟨_, ⟨⟩, huuid, hpre, rfl⟩
      rw [huuid, hpre]
      rfl

/-- **The order of the identity does not matter**: annotations that state it can stand anywhere
among the others. -/
theorem normalizeInterfaceMetadata_rearrange {interface result : InterfaceNode}
    {as bs : List AnnotationNode} (hperm : as.Perm bs)
    (hothers : Metadata.others as = Metadata.others bs)
    (h : normalizeInterfaceMetadata { interface with annotations := as } = .ok result) :
    normalizeInterfaceMetadata { interface with annotations := bs } = .ok result := by
  obtain ⟨m, hfold, huuid, hpre, rfl⟩ := normalizeInterfaceMetadata_eq_ok.1 h
  obtain ⟨m₁, hidentities, rfl⟩ := Metadata.foldlM_take_eq_ok.1 hfold
  have hbs := Metadata.foldlM_take_withAnnotations (Metadata.forall_mem_identities bs)
    (Metadata.foldlM_take_perm (hperm.filter _) (Metadata.forall_mem_identities as)
      hidentities) [] bs
  refine normalizeInterfaceMetadata_eq_ok.2
    ⟨_, Metadata.foldlM_take_eq_ok.2 ⟨_, hbs, rfl⟩, huuid, hpre, ?_⟩
  simp [Metadata.withAnnotations, hothers]

end Sidlc
