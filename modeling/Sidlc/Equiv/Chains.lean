import Mathlib.Logic.Relation
import Sidlc.Equiv.Histories

/-!
# Chains of extensions

An artifact is extended again and again. Whatever it was made of, the identity stays, and its
revisions stay in front of all that come later (`Extends.appends`).
-/

namespace Sidlc

/-- The artifact is made from the base by extending it, any number of times. -/
def Extends : Bytes → Bytes → Prop :=
  Relation.ReflTransGen fun base artifact =>
    ∃ source, compile (some base) source = .ok (some artifact)

/-- The interface with further revisions behind its own. -/
def InterfaceNode.Grows (base interface : InterfaceNode) : Prop :=
  ∃ revisions currentFuncid,
    interface = base.withRevisions (base.abiversions ++ revisions) currentFuncid

namespace InterfaceNode.Grows

theorem refl (interface : InterfaceNode) : interface.Grows interface :=
  ⟨[], interface.currentFuncid, by rw [List.append_nil]; rfl⟩

theorem trans {base middle interface : InterfaceNode} (h : base.Grows middle)
    (h' : middle.Grows interface) : base.Grows interface := by
  obtain ⟨revisions, _, rfl⟩ := h
  obtain ⟨more, currentFuncid, rfl⟩ := h'
  exact ⟨revisions ++ more, currentFuncid, by rw [← List.append_assoc]; rfl⟩

variable {base interface : InterfaceNode}

theorem name (h : base.Grows interface) : interface.name = base.name := by
  obtain ⟨_, _, rfl⟩ := h
  rfl

theorem prefixStr (h : base.Grows interface) : interface.prefixStr = base.prefixStr := by
  obtain ⟨_, _, rfl⟩ := h
  rfl

theorem hasPrefix (h : base.Grows interface) : interface.hasPrefix = base.hasPrefix := by
  obtain ⟨_, _, rfl⟩ := h
  rfl

theorem hasUuid (h : base.Grows interface) : interface.hasUuid = base.hasUuid := by
  obtain ⟨_, _, rfl⟩ := h
  rfl

theorem annotations (h : base.Grows interface) : interface.annotations = base.annotations := by
  obtain ⟨_, _, rfl⟩ := h
  rfl

theorem abiversions (h : base.Grows interface) : base.abiversions <+: interface.abiversions := by
  obtain ⟨revisions, _, rfl⟩ := h
  exact ⟨revisions, rfl⟩

theorem functionsOf (h : base.Grows interface) :
    functionsOf base.abiversions <+: functionsOf interface.abiversions := by
  obtain ⟨revisions, hrevisions⟩ := h.abiversions
  exact ⟨Sidlc.functionsOf revisions, by rw [← hrevisions, functionsOf_append]⟩

end InterfaceNode.Grows

/-- One extension adds revisions. -/
theorem grows_of_compile {base source artifact : Bytes} {interface : InterfaceNode}
    (hbase : sifRead base = .ok interface) (h : compile (some base) source = .ok (some artifact)) :
    ∃ result, sifRead artifact = .ok result ∧ interface.Grows result := by
  obtain ⟨hdecoded, -⟩ := (sifRead_eq_ok_iff ..).1 hbase
  obtain ⟨extension, -, -, hresult, rfl⟩ := compile_some_spec hbase h
  refine ⟨interface.merged [extension],
    (sifRead_eq_ok_iff ..).2 ⟨hresult, CellFormat.matches_encode _⟩,
    interface.stampRevisions (interface.lastHash zeroHash interface.abiversions)
      extension.abiversions,
    (interface.merged [extension]).currentFuncid, ?_⟩
  rw [← abiversions_merged_singleton hdecoded extension]
  rfl

/-- **A chain of extensions only appends** to what it starts from. -/
theorem Extends.appends {base artifact : Bytes} (h : Extends base artifact)
    {interface : InterfaceNode} (hbase : sifRead base = .ok interface) :
    ∃ result, sifRead artifact = .ok result ∧ interface.Grows result := by
  induction h with
  | refl => exact ⟨interface, hbase, .refl interface⟩
  | tail _ hstep ih =>
    obtain ⟨middle, hmiddle, hgrows⟩ := ih
    obtain ⟨source, hcompile⟩ := hstep
    obtain ⟨result, hresult, hgrows'⟩ := grows_of_compile hmiddle hcompile
    exact ⟨result, hresult, hgrows.trans hgrows'⟩

/-- What is extended further has the longer history. -/
theorem Compiled.extends {sources : List Bytes} {base artifact : Bytes}
    (hbase : Compiled sources base) (h : Extends base artifact) :
    ∃ more, Compiled (sources ++ more) artifact := by
  induction h with
  | refl => exact ⟨[], by rwa [List.append_nil]⟩
  | tail _ hstep ih =>
    obtain ⟨more, hmiddle⟩ := ih
    obtain ⟨source, hcompile⟩ := hstep
    exact ⟨more ++ [source], by rw [← List.append_assoc]; exact hmiddle.extend hcompile⟩

end Sidlc
