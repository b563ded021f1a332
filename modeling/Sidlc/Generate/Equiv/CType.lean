import Sidlc.Generate.CType
import Sidlc.Library.CDeclaration

/-!
# What the generated types mean

`to_c_type` puts `const` in front of the whole type, where C takes it for a qualifier of the type
name. So a type keeps its structure exactly when no pointer in it is `const`
(`read_toCType_iff`).
-/

namespace Sidlc

open CDeclaration

namespace TypeNode

/-- Built from named types, `const` and `ptr`. -/
def Arrayless : TypeNode → Prop
  | named .. => True
  | ptr _ _ inner => inner.Arrayless
  | array .. => False

/-- The name behind all pointers and arrays. -/
def innermostName : TypeNode → Bytes
  | named _ _ name => name
  | ptr _ _ inner | array _ _ inner => inner.innermostName

/-- No pointer is `const`, only the type behind them may be. -/
def ConstAtBase : TypeNode → Prop
  | named .. => True
  | ptr c _ inner => c = false ∧ inner.ConstAtBase
  | array _ _ inner => inner.ConstAtBase

/-- The C type of the same structure: a pointer for each `ptr`, qualified where the SIDL type is. An
array stands for its element, as it does in a C parameter list of the generators. -/
def image (pfx : Bytes) : TypeNode → CType
  | named c _ name => .base c (cName pfx name)
  | ptr c _ inner => .pointer c (inner.image pfx)
  | array _ _ inner => inner.image pfx

/-- The C type that `to_c_type` writes: every `const` ends up at the type name. -/
def written (pfx : Bytes) : TypeNode → CType
  | named c _ name => .base c (cName pfx name)
  | ptr c _ inner =>
    if c then (CType.pointer false (inner.written pfx)).qualifyBase
    else .pointer false (inner.written pfx)
  | array c _ inner => if c then (inner.written pfx).qualifyBase else inner.written pfx

theorem baseName_image (pfx : Bytes) (t : TypeNode) :
    (t.image pfx).baseName = cName pfx t.innermostName := by
  induction t with
  | named c n name => rfl
  | ptr c n inner ih => exact ih
  | array c n inner ih => exact ih

end TypeNode

theorem read_constPart {text : Bytes} {t : CType} (h : read text = some t) (c : Bool) :
    read (constPart c ++ text) = some (if c then t.qualifyBase else t) := by
  cases c with
  | false => exact h
  | true => exact read_const h

/-- The special case for `void` writes what the general case would. -/
theorem toCType_ptr (pfx : Bytes) (c : Bool) (n : Nat) (inner : TypeNode) :
    toCType pfx (.ptr c n inner) = constPart c ++ (toCType pfx inner ++ ascii " *") := by
  rw [toCType]
  by_cases hvoid : toCType pfx inner = ascii "void"
  · rw [if_pos hvoid, hvoid]
    rfl
  · rw [if_neg hvoid]

/-- C reads the text of a type as `written`. -/
theorem read_toCType (pfx : Bytes) (t : TypeNode) (h : IsName (cName pfx t.innermostName)) :
    read (toCType pfx t) = some (t.written pfx) := by
  induction t with
  | named c n name =>
    have hname : read (cName pfx name) = some (.base false (cName pfx name)) := read_of_isName h
    rw [toCType, read_constPart hname]
    cases c <;> rfl
  | ptr c n inner ih =>
    have hstar : read (toCType pfx inner ++ ascii " *")
      = some (.pointer false (inner.written pfx)) :=
      read_space_star (ih h)
    rw [toCType_ptr, read_constPart hstar]
    rfl
  | array c n inner ih =>
    rw [toCType, read_constPart (ih h)]
    rfl

theorem written_eq_image_iff (pfx : Bytes) {t : TypeNode} (ht : t.Arrayless) :
    t.written pfx = t.image pfx ↔ t.ConstAtBase := by
  induction t with
  | named c n name => exact iff_of_true rfl trivial
  | ptr c n inner ih =>
    rw [TypeNode.image, TypeNode.ConstAtBase, ← ih ht]
    cases c with
    | false => simp [TypeNode.written]
    | true => simp [TypeNode.written, CType.qualifyBase]
  | array c n inner ih => exact absurd ht id

/-- **The C type of a SIDL type is its structural image exactly when no pointer in it is `const`**
and its C name is a name. Types for which it is are told apart by their C types. -/
theorem read_toCType_iff (pfx : Bytes) (t : TypeNode) (ht : t.Arrayless) :
    (read (toCType pfx t) = some (t.image pfx) ↔
      t.ConstAtBase ∧ IsName (cName pfx t.innermostName)) ∧
    ∀ u : TypeNode, u.Arrayless → u.ConstAtBase ∧ IsName (cName pfx u.innermostName) →
      t.ConstAtBase ∧ IsName (cName pfx t.innermostName) →
      toCType pfx t = toCType pfx u → t.image pfx = u.image pfx := by
  have hiff : ∀ t : TypeNode, t.Arrayless → (read (toCType pfx t) = some (t.image pfx) ↔
      t.ConstAtBase ∧ IsName (cName pfx t.innermostName)) := by
    intro t ht
    constructor
    · intro h
      have hname : IsName (cName pfx t.innermostName) := by
        rw [← TypeNode.baseName_image]
        exact isName_baseName h
      rw [read_toCType pfx t hname] at h
      exact ⟨(written_eq_image_iff pfx ht).1 (Option.some.inj h), hname⟩
    · rintro ⟨hconst, hname⟩
      rw [read_toCType pfx t hname, (written_eq_image_iff pfx ht).2 hconst]
  refine ⟨hiff t ht, ?_⟩
  intro u hu hconstu hconst htext
  -- both texts are read back, and they are the same text
  have h : some (t.image pfx) = some (u.image pfx) := by
    rw [← (hiff t ht).2 hconst, ← (hiff u hu).2 hconstu, htext]
  exact Option.some.inj h

/-- `const ptr<u32>` and `ptr<const u32>` -/
def constPointer : TypeNode :=
  .ptr true 0 (.named false 0 (ascii "u32"))

def pointerToConst : TypeNode :=
  .ptr false 0 (.named true 0 (ascii "u32"))

/-- The two get the same C type, a pointer to `const uint32_t`. -/
theorem not_read_toCType_constPointer :
    read (toCType [] constPointer) ≠ some (constPointer.image []) ∧
      toCType [] constPointer = toCType [] pointerToConst ∧
      constPointer.image [] ≠ pointerToConst.image [] := by
  decide +kernel

theorem read_toCType_pointerToConst :
    read (toCType [] pointerToConst) = some (pointerToConst.image []) :=
  (read_toCType_iff [] pointerToConst trivial).1.2
    ⟨⟨rfl, trivial⟩, by decide +kernel⟩

end Sidlc
