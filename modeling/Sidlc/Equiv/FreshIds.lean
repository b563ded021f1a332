import Mathlib.Data.List.Nodup
import Sidlc.Equiv.Recompile

/-!
# The ids that an extension gets

`read_function` leaves `current_funcid` at the running maximum of id plus one, in thirty-two bits,
and the parser counts on from there. `nextId` is that maximum without the arithmetic of the machine,
and `idsLeft` the number of ids that can be counted before one of the base comes again.
-/

namespace Sidlc

open CellFormat (encode)

/-! ### Counting ids -/

/-- The ids of the functions of an interface. -/
def InterfaceNode.funcids (interface : InterfaceNode) : List UInt32 :=
  (functionsOf interface.abiversions).map FunctionNode.id

/-- The id that one plus wraps to `0`. -/
def topId : UInt32 :=
  0xffffffff

/-- One above the largest id, where the top one does not count. -/
def nextId : List UInt32 → Nat
  | [] => 0
  | id :: ids => if id = topId then nextId ids else max (id.toNat + 1) (nextId ids)

/-- How many ids can be counted from `nextId ids` on, around the end of the range, before one of
`ids` comes. -/
def idsLeft (ids : List UInt32) : Nat :=
  if topId ∈ ids then 2 ^ 32 - 1 - nextId ids
  else 2 ^ 32 - nextId ids + (ids.map UInt32.toNat).min?.getD 0

/-- `n` ids, counted from `id` on. -/
def countIds (id : UInt32) (n : Nat) : List UInt32 :=
  (List.range n).map fun k => id + UInt32.ofNat k

theorem map_id_renumberFunctions (id : UInt32) (fs : List FunctionNode) :
    (renumberFunctions id fs).map FunctionNode.id = countIds id fs.length := by
  refine List.ext_getElem? fun k => ?_
  rw [List.getElem?_map, getElem?_renumberFunctions, countIds, List.getElem?_map]
  by_cases hk : k < fs.length
  · rw [List.getElem?_eq_getElem hk, List.getElem?_range hk]
    rfl
  · rw [List.getElem?_eq_none (by omega), List.getElem?_eq_none (by rw [List.length_range]; omega)]
    rfl

theorem toNat_add_ofNat (id : UInt32) (k : Nat) :
    (id + UInt32.ofNat k).toNat = (id.toNat + k) % 2 ^ 32 := by
  rw [UInt32.toNat_add, UInt32.toNat_ofNat']
  omega

theorem mem_countIds {id i : UInt32} {n : Nat} :
    i ∈ countIds id n ↔ ∃ k < n, i.toNat = (id.toNat + k) % 2 ^ 32 := by
  rw [countIds, List.mem_map]
  constructor
  · rintro ⟨k, hk, rfl⟩
    exact ⟨k, List.mem_range.1 hk, toNat_add_ofNat id k⟩
  · rintro ⟨k, hk, hi⟩
    exact ⟨k, List.mem_range.2 hk, UInt32.toNat_inj.1 ((toNat_add_ofNat id k).trans hi.symm)⟩

/-- The count repeats itself after `2 ^ 32` ids. -/
theorem nodup_countIds_iff {id : UInt32} {n : Nat} : (countIds id n).Nodup ↔ n ≤ 2 ^ 32 := by
  constructor
  · intro h
    by_contra hn
    have hinj := List.inj_on_of_nodup_map h
    have hsame : (0 : Nat) = 2 ^ 32 :=
      hinj (List.mem_range.2 (by omega)) (List.mem_range.2 (by omega)) rfl
    omega
  · intro hn
    refine List.Nodup.map_on (fun j hj k hk h => ?_) List.nodup_range
    have hmod := congrArg UInt32.toNat h
    rw [toNat_add_ofNat, toNat_add_ofNat] at hmod
    have hj' := List.mem_range.1 hj
    have hk' := List.mem_range.1 hk
    have hid := id.toNat_lt
    omega

/-! ### The running maximum -/

theorem toNat_add_one_of_ne {id : UInt32} (h : id ≠ topId) : (id + 1).toNat = id.toNat + 1 := by
  have hne : id.toNat ≠ 2 ^ 32 - 1 := fun heq => h (UInt32.toNat_inj.1 heq)
  have hlt := id.toNat_lt
  rw [UInt32.toNat_add]
  exact Nat.mod_eq_of_lt (by change id.toNat + 1 < 2 ^ 32; omega)

/-- **What `sif_read` finds as the next id.** -/
theorem toNat_nextFuncid_eq (start : UInt32) (fs : List FunctionNode) :
    (nextFuncid start fs).toNat = max start.toNat (nextId (fs.map FunctionNode.id)) := by
  induction fs generalizing start with
  | nil => exact (Nat.max_zero _).symm
  | cons f fs ih =>
    have hstep : nextFuncid start (f :: fs) = nextFuncid (max start (f.id + 1)) fs := rfl
    rw [hstep, ih, UInt32.toNat_max, List.map_cons, nextId]
    by_cases htop : f.id = topId
    · have hzero : (topId + 1).toNat = 0 := rfl
      rw [if_pos htop, htop, hzero, Nat.max_zero]
    · rw [if_neg htop, toNat_add_one_of_ne htop, Nat.max_assoc]

theorem nextId_le (ids : List UInt32) : nextId ids ≤ 2 ^ 32 - 1 := by
  induction ids with
  | nil => exact Nat.zero_le _
  | cons id ids ih =>
    rw [nextId]
    by_cases htop : id = topId
    · rwa [if_pos htop]
    · have hnext := toNat_add_one_of_ne htop
      have hlt := (id + 1).toNat_lt
      rw [if_neg htop]
      omega

theorem lt_nextId {ids : List UInt32} {id : UInt32} (h : id ∈ ids) (hne : id ≠ topId) :
    id.toNat < nextId ids := by
  induction ids with
  | nil => cases h
  | cons i ids ih =>
    rw [nextId]
    rcases List.mem_cons.1 h with rfl | h
    · rw [if_neg hne]
      omega
    · have hlt := ih h
      split_ifs
      · exact hlt
      · omega

/-- **Counting on gives new ids just as long as there are any left.** -/
theorem countIds_fresh_iff {ids : List UInt32} {next : UInt32} (hnext : next.toNat = nextId ids)
    (n : Nat) :
    ((countIds next n).Nodup ∧ ∀ id ∈ countIds next n, id ∉ ids) ↔ n ≤ idsLeft ids := by
  have hle := nextId_le ids
  unfold idsLeft
  by_cases htop : topId ∈ ids
  · rw [if_pos htop]
    constructor
    · rintro ⟨-, hfresh⟩
      by_contra hn
      -- the count reaches the top id
      refine hfresh topId (mem_countIds.2 ⟨2 ^ 32 - 1 - nextId ids, by omega, ?_⟩) htop
      have hvalue : topId.toNat = 2 ^ 32 - 1 := rfl
      rw [hvalue]
      omega
    · intro hn
      refine ⟨nodup_countIds_iff.2 (by omega), fun id hid hmem => ?_⟩
      obtain ⟨k, hk, hvalue⟩ := mem_countIds.1 hid
      have hne : id ≠ topId := by
        rintro rfl
        have htopvalue : topId.toNat = 2 ^ 32 - 1 := rfl
        omega
      have hlt := lt_nextId hmem hne
      omega
  · rw [if_neg htop]
    have hlt (id : UInt32) (hid : id ∈ ids) : id.toNat < nextId ids :=
      lt_nextId hid fun h => htop (h ▸ hid)
    cases hmin : (ids.map UInt32.toNat).min? with
    | none =>
      have hnil : ids = [] := List.map_eq_nil_iff.1 (List.min?_eq_none_iff.1 hmin)
      subst hnil
      simp only [List.not_mem_nil, not_false_iff, implies_true, and_true, nodup_countIds_iff]
      exact Iff.rfl
    | some low =>
      obtain ⟨hmem, hlow⟩ := List.min?_eq_some_iff.1 hmin
      obtain ⟨lowest, hlowest, rfl⟩ := List.mem_map.1 hmem
      have hlowlt := hlt lowest hlowest
      rw [Option.getD_some]
      constructor
      · rintro ⟨-, hfresh⟩
        by_contra hn
        -- the count goes around and reaches the smallest id
        refine hfresh lowest
          (mem_countIds.2 ⟨2 ^ 32 - nextId ids + lowest.toNat, by omega, ?_⟩) hlowest
        omega
      · intro hn
        refine ⟨nodup_countIds_iff.2 (by omega), fun id hid hold => ?_⟩
        obtain ⟨k, hk, hvalue⟩ := mem_countIds.1 hid
        have hbelow := hlt id hold
        have habove := hlow id.toNat (List.mem_map_of_mem hold)
        omega

/-! ### Extending -/

/-- The ids of the extension are pairwise distinct and differ from those of the base. -/
def FreshIds (base extension : InterfaceNode) : Prop :=
  extension.funcids.Nodup ∧ ∀ id ∈ extension.funcids, id ∉ base.funcids

/-- What the command checks of an extension: it has an identity, which is that of the base, and
nothing of it is too long for the artifact. -/
def PassesChecks (base extension : InterfaceNode) : Prop :=
  ∃ node, normalizeInterfaceMetadata extension = .ok node ∧
    validateExtensionInterface base node = .ok () ∧ Writable base [node]

theorem funcids_of_parse {source : Bytes} {firstAbirevision : UInt64} {firstFuncid : UInt32}
    {interface : InterfaceNode}
    (h : Parser.parse source firstAbirevision firstFuncid = .ok (some interface)) :
    interface.funcids = countIds firstFuncid (functionsOf interface.abiversions).length := by
  obtain ⟨ts, hts, hdecl⟩ := Parser.parse_eq_some_iff.1 h
  obtain ⟨name, annotations, nodes, -, -, -, -, -, rfl⟩ :=
    Syntax.interfaceDecl_spec (Syntax.printable_of_interfaceDecl hts hdecl) hdecl
  have hfunctions : functionsOf (([] : List AbiversionNode)
      ++ renumber firstFuncid (nodes.map AbiversionNode.bare))
      = renumberFunctions firstFuncid (functionsOf (nodes.map AbiversionNode.bare)) := by
    rw [List.nil_append, functionsOf_renumber]
  show (functionsOf _).map FunctionNode.id = countIds firstFuncid (functionsOf _).length
  rw [InterfaceNode.declare]
  dsimp only
  rw [hfunctions, map_id_renumberFunctions, length_renumberFunctions]

/-- An artifact is written whenever the checks pass. -/
theorem exists_compile_some_iff {base source : Bytes} {interface extension : InterfaceNode}
    (hread : sifRead base = .ok interface)
    (hparse : Parser.parse source (UInt64.ofNat interface.abiversions.length)
      interface.currentFuncid = .ok (some extension)) :
    (∃ artifact, compile (some base) source = .ok (some artifact)) ↔
      PassesChecks interface extension := by
  constructor
  · rintro ⟨artifact, h⟩
    obtain ⟨interface', node, hread', hparse', hvalid, hwrite⟩ := compile_some_eq_some_iff.1 h
    obtain rfl : interface' = interface := Except.ok.inj (hread'.symm.trans hread)
    obtain ⟨extension', hparse'', hnormalize⟩ := parseInterfaceFile_eq_some_iff.1 hparse'
    obtain rfl : extension' = extension :=
      Option.some.inj (Except.ok.inj (hparse''.symm.trans hparse))
    exact ⟨node, hnormalize, hvalid, ((sifWrite_eq_ok_iff ..).1 hwrite).1⟩
  · rintro ⟨node, hnormalize, hvalid, hwritable⟩
    exact ⟨_, compile_some_eq_some_iff.2 ⟨interface, node, hread,
      parseInterfaceFile_eq_some_iff.2 ⟨extension, hparse, hnormalize⟩, hvalid,
      (sifWrite_eq_ok_iff ..).2 ⟨hwritable, rfl⟩⟩⟩

theorem freshIds_iff {base source : Bytes} {interface extension : InterfaceNode}
    (hread : sifRead base = .ok interface)
    (hparse : Parser.parse source (UInt64.ofNat interface.abiversions.length)
      interface.currentFuncid = .ok (some extension)) {n : Nat} (hn : Declares source n) :
    FreshIds interface extension ↔ n ≤ idsLeft interface.funcids := by
  obtain ⟨hdecoded, -⟩ := (sifRead_eq_ok_iff ..).1 hread
  have hcount : n = (functionsOf extension.abiversions).length :=
    hn.unique (declares_of_parse hparse)
  have hnext : interface.currentFuncid.toNat = nextId interface.funcids := by
    rw [hdecoded.currentFuncid, toNat_nextFuncid_eq]
    exact Nat.zero_max _
  rw [FreshIds, funcids_of_parse hparse, ← hcount]
  exact countIds_fresh_iff hnext n

/-- **New ids against the base.** An extension gets ids of its own, or is rejected, exactly when it
declares no more functions than there are ids left, or does not pass the checks of the command: no
check looks at the ids. -/
theorem freshIds_or_rejected_iff (base source : Bytes) (interface extension : InterfaceNode)
    (hread : sifRead base = .ok interface)
    (hparse : Parser.parse source (UInt64.ofNat interface.abiversions.length)
      interface.currentFuncid = .ok (some extension)) (n : Nat) (hn : Declares source n) :
    (FreshIds interface extension ↔ n ≤ idsLeft interface.funcids) ∧
      ((FreshIds interface extension ∨
          ¬∃ artifact, compile (some base) source = .ok (some artifact)) ↔
        n ≤ idsLeft interface.funcids ∨ ¬PassesChecks interface extension) := by
  have hfresh := freshIds_iff hread hparse hn
  refine ⟨hfresh, ?_⟩
  rw [hfresh, exists_compile_some_iff hread hparse]

/-! ### A base that holds the last ids -/

/-- A revision of two functions, with the ids `2 ^ 32 - 2` and `2 ^ 32 - 1`. -/
def lastIdsRevision : AbiversionNode :=
  { version := 0
    functions := [
      { name := ascii "f", annotations := [], parameters := [], id := 0xfffffffe },
      { name := ascii "g", annotations := [], parameters := [], id := 0xffffffff }] }

/-- A source with one revision of one function extends the sample with one revision. -/
theorem compile_repeatedSource_sampleRead {revision : AbiversionNode}
    (hversion : revision.version = 0)
    (h : revision.Encodable) :
    ∃ extension artifact,
      Parser.parse (repeatedSource 1 [1]) (UInt64.ofNat (sampleRead revision).abiversions.length)
          (sampleRead revision).currentFuncid = .ok (some extension) ∧
        compile (some (encode (sampleRead revision).layout)) (repeatedSource 1 [1])
          = .ok (some artifact) := by
  have hparse := parseInterfaceFile_decompileInterface (normalized_sampleInterface _)
    (printable_repeatedRevisions 1 [1]) (versionsFrom_repeatedRevisions 1 [1])
    (sampleRead revision).currentFuncid
  have hencodable : ∀ node ∈ repeatedRevisions 1 [1], node.Encodable :=
    encodable_repeatedRevisions 1 (by decide)
  have hcount : (sampleRead revision).abiversions.length +
      (renumber (sampleRead revision).currentFuncid
      ((repeatedRevisions 1 [1]).map AbiversionNode.bare)).length < 2 ^ 32 := by
    rw [length_renumber]
    show 1 + 1 < 2 ^ 32
    omega
  have hcompile := compile_some_of_parse (sifRead_sampleRead hversion h) hparse
    (encodable_renumber.2 (encodable_map_bare.2 hencodable)) hcount
  obtain ⟨extension, hextension, -⟩ := parseInterfaceFile_eq_some_iff.1 hparse
  exact ⟨extension, _, hextension, hcompile⟩

/-- The extension of a base with the last two ids gets the last id again. -/
theorem not_freshIds_lastIds :
    ∃ interface extension artifact,
      sifRead (encode (sampleRead lastIdsRevision).layout) = .ok interface ∧
      Parser.parse (repeatedSource 1 [1]) (UInt64.ofNat interface.abiversions.length)
        interface.currentFuncid = .ok (some extension) ∧
      compile (some (encode (sampleRead lastIdsRevision).layout)) (repeatedSource 1 [1])
        = .ok (some artifact) ∧
      ¬FreshIds interface extension := by
  have hversion : lastIdsRevision.version = 0 := rfl
  have hencodable : lastIdsRevision.Encodable := by decide
  have hread := sifRead_sampleRead hversion hencodable
  obtain ⟨extension, artifact, hparse, hcompile⟩ :=
    compile_repeatedSource_sampleRead hversion hencodable
  refine ⟨_, extension, artifact, hread, hparse, hcompile, ?_⟩
  rw [freshIds_iff hread hparse (declares_repeatedSource 1 [1]), InterfaceNode.funcids,
    functionsOf_sampleRead]
  decide

/-- The extension of a base with the id `0` gets another one. -/
theorem freshIds_or_rejected_sample :
    ∃ interface extension,
      sifRead (encode (sampleRead (sampleRevision 0 0)).layout) = .ok interface ∧
      Parser.parse (repeatedSource 1 [1]) (UInt64.ofNat interface.abiversions.length)
        interface.currentFuncid = .ok (some extension) ∧
      FreshIds interface extension := by
  have hversion : (sampleRevision 0 0).version = 0 := rfl
  have hencodable : (sampleRevision 0 0).Encodable := by decide
  have hread := sifRead_sampleRead hversion hencodable
  obtain ⟨extension, -, hparse, -⟩ := compile_repeatedSource_sampleRead hversion hencodable
  obtain ⟨hfresh, -⟩ := freshIds_or_rejected_iff _ _ _ extension hread hparse _
    (declares_repeatedSource 1 [1])
  refine ⟨_, extension, hread, hparse, hfresh.2 ?_⟩
  rw [InterfaceNode.funcids, functionsOf_sampleRead]
  decide

end Sidlc
