import Sidlc.Equiv.Texts

/-!
# Cutting a history

The revisions of a compiled artifact are cut in two. The text of the older ones compiles to an
artifact, and the text of the newer ones extends it: to the artifact that was cut, exactly when the
functions of either part have the ids that the compiler gives them (`compile_cut`).
-/

namespace Sidlc

open CellFormat

/-- Numbering two lists of revisions changes nothing exactly when it changes neither. -/
theorem renumber_append_renumber_eq_iff {first next : UInt32} {xs ys : List AbiversionNode} :
    renumber first xs ++ renumber next ys = xs ++ ys ↔
      NumberedFrom first (functionsOf xs) ∧ NumberedFrom next (functionsOf ys) := by
  rw [← renumber_eq_self_iff, ← renumber_eq_self_iff]
  constructor
  · exact fun h => List.append_inj h (length_renumber ..)
  · rintro ⟨hxs, hys⟩
    rw [hxs, hys]

/-- **Cutting the text of a compiled artifact** between two revisions: the older ones compile to an
artifact, which the newer ones extend to the one that was cut exactly when the functions of the
older revisions are numbered from `0` and those of the newer ones go on after the highest id. -/
theorem compile_cut (sources : List Bytes) (artifact : Bytes) (h : Compiled sources artifact) :
    ∃ interface, sifRead artifact = .ok interface ∧
      ∀ older newer, interface.abiversions = older ++ newer → older ≠ [] →
        ∃ base whole,
          compile none (decompileInterface (interface.withRevisions older 0)) = .ok (some base) ∧
          compile (some base) (decompileInterface (interface.withRevisions newer 0))
            = .ok (some whole) ∧
          (whole = artifact ↔ NumberedFrom 0 (functionsOf older) ∧
            NumberedFrom (nextFuncid 0 (functionsOf older)) (functionsOf newer)) := by
  obtain ⟨interface, -, hartifact, -, -, -⟩ := h.spec
  refine ⟨interface, hartifact.sifRead, fun older newer hcut hne => ?_⟩
  have hdeclarable := hartifact.declarable
  have hcountable := hartifact.decoded.countable
  rw [hcut, declarable_append, Nat.zero_add] at hdeclarable
  rw [hcut, Countable, List.length_append] at hcountable
  obtain ⟨-, -, hidentity, -⟩ := hartifact.decoded.writable
  -- the older revisions are an artifact of their own
  obtain ⟨base, revisions, next, hbase, hbaseArtifact, holder⟩ :=
    hartifact.normalized.compile_first hidentity hdeclarable.1 hne (by omega)
  have hlength : revisions.length = older.length := by
    have hlengths := congrArg List.length holder
    rwa [List.length_map, length_renumber, List.length_map] at hlengths
  -- the text of the newer revisions extends it
  obtain ⟨whole, all, next', hwhole, hwholeArtifact, hall⟩ :=
    hbaseArtifact.compile_next (hlength ▸ hdeclarable.2) (by omega)
  refine ⟨base, whole, hbase, hwhole, ?_⟩
  -- the base says which id is next
  have hnext : NumberedFrom 0 (functionsOf older) → next = nextFuncid 0 (functionsOf older) := by
    intro hnumbered
    have hsame : revisions.map AbiversionNode.bare = older.map AbiversionNode.bare :=
      holder.trans (renumber_eq_self_iff.2 (numberedFrom_functionsOf_map_bare.2 hnumbered))
    have hfunctions := congrArg functionsOf hsame
    rw [functionsOf_map_bare, functionsOf_map_bare] at hfunctions
    have hcurrent : next = nextFuncid 0 (functionsOf revisions) :=
      hbaseArtifact.decoded.currentFuncid
    rw [hcurrent, ← nextFuncid_map_bare, hfunctions, nextFuncid_map_bare]
  have hiff : whole = artifact ↔
      renumber 0 (older.map AbiversionNode.bare) ++ renumber next (newer.map AbiversionNode.bare)
        = older.map AbiversionNode.bare ++ newer.map AbiversionNode.bare := by
    rw [← holder, ← hall, ← List.map_append, ← hcut]
    constructor
    · intro hsame
      exact congrArg (fun I : InterfaceNode => I.abiversions.map AbiversionNode.bare)
        ((hwholeArtifact.eq_iff hartifact).1 hsame)
    · exact fun hbare => hwholeArtifact.eq_of_map_bare hartifact hbare
  rw [hiff, renumber_append_renumber_eq_iff, numberedFrom_functionsOf_map_bare,
    numberedFrom_functionsOf_map_bare]
  exact and_congr_right fun hnumbered => by rw [hnext hnumbered]

/-- A source that was extended, cut behind its first revision. -/
theorem compile_cut_repeatedSources :
    ∃ (artifact base whole : Bytes) (interface : InterfaceNode) (older newer : List AbiversionNode),
      Compiled [repeatedSource 0 [1, 1], repeatedSource 2 [1]] artifact ∧
      sifRead artifact = .ok interface ∧ interface.abiversions = older ++ newer ∧
      compile none (decompileInterface (interface.withRevisions older 0)) = .ok (some base) ∧
      compile (some base) (decompileInterface (interface.withRevisions newer 0))
        = .ok (some whole) ∧
      (whole = artifact ↔ NumberedFrom 0 (functionsOf older) ∧
        NumberedFrom (nextFuncid 0 (functionsOf older)) (functionsOf newer)) := by
  obtain ⟨artifact, h⟩ := compiled_repeatedSources [1, 1] [1] 2 rfl (by simp) (by decide)
    (by decide) (by decide)
  obtain ⟨interface, hread, hcuts⟩ := compile_cut _ artifact h
  obtain ⟨hdecoded, -⟩ := (sifRead_eq_ok_iff ..).1 hread
  obtain ⟨node, nodes, hnodes⟩ := List.exists_cons_of_ne_nil hdecoded.nonempty
  obtain ⟨base, whole, hbase, hwhole, hiff⟩ := hcuts [node] nodes hnodes (List.cons_ne_nil _ _)
  exact ⟨artifact, base, whole, interface, [node], nodes, h, hread, hnodes, hbase, hwhole, hiff⟩

end Sidlc
