import Sidlc.Equiv.ExtensionIdentity
import Sidlc.Equiv.Recompile
import Sidlc.Sif.Equiv.HashChain

/-!
# What the last hash of an artifact binds

As long as SHA-256 does not collide on the messages of two artifacts, their last hashes agree only
where all their revisions agree. The name, the prefix, the annotations of the interface and the
arguments of its UUID are not hashed. They are what `validate_extension_interface` compares, and all
that may differ then (`lastHash_binds`).
-/

namespace Sidlc

open CellFormat

theorem VersionsFrom.contiguous {revisions : List AbiversionNode} (h : VersionsFrom 0 revisions)
    (hcountable : Countable revisions) : Contiguous revisions := by
  have step (i : Nat) (nodes : List AbiversionNode) (hnodes : VersionsFrom i nodes) (j : Nat)
      (node : AbiversionNode) (hj : nodes[j]? = some node) :
      node.version = UInt64.ofNat (i + j) := by
    induction nodes generalizing i j with
    | nil => cases hj
    | cons x xs ih =>
      cases j with
      | zero =>
        obtain rfl := Option.some.inj hj
        exact hnodes.1
      | succ j =>
        have hnext := ih (i + 1) hnodes.2 j hj
        rwa [Nat.add_assoc, Nat.add_comm 1] at hnext
  intro i node hi
  have hlt := (List.getElem?_eq_some_iff.1 hi).1
  have hsize : i < 2 ^ 64 := by
    unfold Countable at hcountable
    omega
  rw [step 0 revisions h i node hi, Nat.zero_add]
  exact UInt64.toNat_ofNat_of_lt' hsize

namespace InterfaceNode.Decoded

variable {I J : InterfaceNode}

/-- The last hash of the table is that of the chain. -/
theorem getLast?_hashTable (h : I.Decoded) :
    I.hashTable.getLast? = some (I.lastHash zeroHash I.abiversions) := by
  rw [← I.getLast?_stampRevisions zeroHash h.nonempty, h.stamped]
  rfl

/-- The same UUID, and the same revisions up to sizes and hashes. -/
theorem abiversions_eq (hI : I.Decoded) (hJ : J.Decoded) (huuid : I.uuid = J.uuid)
    (hbare : I.abiversions.map AbiversionNode.bare = J.abiversions.map AbiversionNode.bare) :
    I.abiversions = J.abiversions :=
  calc I.abiversions = I.stampRevisions zeroHash (I.abiversions.map AbiversionNode.bare) := by
        rw [InterfaceNode.stampRevisions_map_bare, hI.stamped]
    _ = J.stampRevisions zeroHash (J.abiversions.map AbiversionNode.bare) := by
        rw [InterfaceNode.stampRevisions_congr huuid, hbare]
    _ = J.abiversions := by rw [InterfaceNode.stampRevisions_map_bare, hJ.stamped]

/-- Nothing else is in an artifact. -/
theorem eq_iff_sameIdentity (hI : I.Decoded) (hJ : J.Decoded)
    (hrevisions : I.abiversions = J.abiversions) : I = J ↔ SameIdentity I J := by
  constructor
  · rintro rfl
    exact ⟨rfl, rfl, rfl, rfl, rfl⟩
  · rintro ⟨hname, hnamespace, huuidName, hprefix, hannotations⟩
    have hnext : I.currentFuncid = J.currentFuncid := by
      rw [hI.currentFuncid, hJ.currentFuncid, hrevisions]
    have huuid : I.hasUuid = J.hasUuid := hI.hasUuid.trans hJ.hasUuid.symm
    have hpre : I.hasPrefix = J.hasPrefix := hI.hasPrefix.trans hJ.hasPrefix.symm
    cases I
    cases J
    simp only [InterfaceNode.mk.injEq]
    exact ⟨hname, huuid, hnamespace, huuidName, hpre, hprefix, hannotations, hrevisions, hnext⟩

end InterfaceNode.Decoded

/-- **What the last hash binds**: two compiled artifacts with the same last hash, on whose messages
SHA-256 does not collide, have the same UUID and the same revisions, with all ids and hashes; they
are equal exactly when `validate_extension_interface` finds no difference. -/
theorem lastHash_binds (sources sources' : List Bytes) (a b : Bytes) (ha : Compiled sources a)
    (hb : Compiled sources' b) (I J : InterfaceNode) (hI : sifRead a = .ok I)
    (hJ : sifRead b = .ok J) (hlast : I.hashTable.getLast? = J.hashTable.getLast?)
    (hinj : ∀ p ∈ I.preimages zeroHash I.abiversions, ∀ q ∈ J.preimages zeroHash J.abiversions,
      Sha256.digest p = Sha256.digest q → p = q) :
    I.uuid = J.uuid ∧ I.abiversions = J.abiversions ∧
      (a = b ↔ validateExtensionInterface I J = .ok ()) := by
  obtain ⟨I', -, haI, -, -, -⟩ := ha.spec
  obtain ⟨J', -, hbJ, -, -, -⟩ := hb.spec
  obtain rfl : I' = I := Except.ok.inj (haI.sifRead.symm.trans hI)
  obtain rfl : J' = J := Except.ok.inj (hbJ.sifRead.symm.trans hJ)
  have hdI := haI.decoded
  have hdJ := hbJ.decoded
  rw [hdI.getLast?_hashTable, hdJ.getLast?_hashTable] at hlast
  obtain ⟨huuid, hbare⟩ := chains_eq_of_lastHash_eq I'.abiversions J'.abiversions hdI.nonempty
    hdJ.nonempty hdI.encodable hdJ.encodable (hdI.versions.contiguous hdI.countable)
    (hdJ.versions.contiguous hdJ.countable) hinj (Option.some.inj hlast)
  have hrevisions := hdI.abiversions_eq hdJ huuid hbare
  refine ⟨huuid, hrevisions, ?_⟩
  rw [haI.eq_iff hbJ, hdI.eq_iff_sameIdentity hdJ hrevisions,
    validateExtensionInterface_eq_ok_iff haI.normalized hbJ.normalized]

/-- A source of one function under another name. -/
def renamedInterface : InterfaceNode :=
  { sampleInterface (repeatedRevisions 0 [1]) with name := ascii "other" }

theorem normalized_renamedInterface : renamedInterface.Normalized := by
  have hname : IsIdentifier (ascii "other") := by decide +kernel
  obtain ⟨-, h₂, h₃, h₄, h₅, h₆⟩ := normalized_sampleInterface (repeatedRevisions 0 [1])
  exact ⟨hname, h₂, h₃, h₄, h₅, h₆⟩

theorem compile_oneRevision {interface : InterfaceNode} (h : interface.Normalized)
    (hrevisions : interface.abiversions = repeatedRevisions 0 [1])
    (hidentity : interface.IdentityEncodable) :
    ∃ artifact, compile none (decompileInterface interface) = .ok (some artifact) ∧
      Artifact artifact ((interface.reparsed 0).merged []) := by
  have hwritable : Writable interface [] := by
    refine ⟨h.hasUuid, h.hasPrefix, hidentity, ?_, ?_, ?_⟩
    · rw [allRevisions_nil, hrevisions]
      exact List.cons_ne_nil _ _
    · rw [allRevisions_nil, hrevisions]
      show 1 < 2 ^ 32
      decide
    · rw [allRevisions_nil, hrevisions]
      exact encodable_repeatedRevisions 0 (by decide)
  refine compile_decompileInterface h ?_ hwritable ?_
  · rw [hrevisions]
    exact printable_repeatedRevisions 0 [1]
  · rw [hrevisions]
    exact versionsFrom_repeatedRevisions 0 [1]

/-- Renaming an interface changes its artifact, but no hash. -/
theorem lastHash_binds_renamed :
    ∃ (a b : Bytes) (I J : InterfaceNode), sifRead a = .ok I ∧ sifRead b = .ok J ∧
      I.hashTable.getLast? = J.hashTable.getLast? ∧ I.abiversions = J.abiversions ∧ a ≠ b := by
  obtain ⟨a, hacompile, ha⟩ :=
    compile_oneRevision (normalized_sampleInterface (repeatedRevisions 0 [1])) rfl (by decide)
  obtain ⟨b, hbcompile, hb⟩ :=
    compile_oneRevision normalized_renamedInterface rfl (by decide)
  generalize hI : ((sampleInterface (repeatedRevisions 0 [1])).reparsed 0).merged [] = I at ha
  generalize hJ : (renamedInterface.reparsed 0).merged [] = J at hb
  have huuid : I.uuid = J.uuid := by
    rw [← hI, ← hJ]
    rfl
  have hname : I.name ≠ J.name := by
    rw [← hI, ← hJ]
    show ascii "sample" ≠ ascii "other"
    decide
  have hrevisions : I.abiversions = J.abiversions := by
    rw [← hI, ← hJ]
    exact InterfaceNode.stampRevisions_congr (by rfl) _ _
  have hlast : I.hashTable.getLast? = J.hashTable.getLast? := by
    rw [InterfaceNode.hashTable, InterfaceNode.hashTable, hrevisions]
  -- there is one message, and it is the same
  obtain ⟨node, hnode⟩ : ∃ node, J.abiversions = [node] := by
    refine List.length_eq_one_iff.1 ?_
    rw [← hJ]
    rfl
  have hinj : ∀ p ∈ I.preimages zeroHash I.abiversions,
      ∀ q ∈ J.preimages zeroHash J.abiversions, Sha256.digest p = Sha256.digest q → p = q := by
    rw [hrevisions, hnode]
    simp only [InterfaceNode.preimages, List.forall_mem_singleton]
    intro _
    rw [InterfaceNode.revisionPreimage, InterfaceNode.revisionPreimage, huuid]
  obtain ⟨-, -, hiff⟩ := lastHash_binds _ _ a b (.first hacompile) (.first hbcompile) I J
    ha.sifRead hb.sifRead hlast hinj
  rw [validateExtensionInterface_eq_ok_iff ha.normalized hb.normalized] at hiff
  exact ⟨a, b, I, J, ha.sifRead, hb.sifRead, hlast, hrevisions,
    fun hsame => hname (hiff.1 hsame).name⟩

end Sidlc
