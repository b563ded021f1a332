import Sidlc.Generate.Header
import Sidlc.Library.BitMask

/-!
# Bitfield masks

The masks of a bitfield whose fields fit its base type tile it, unless a field has all the
sixty-four bits to itself: the shift that computes its mask is not defined
(`bitfieldMacros_tiles_iff`).
-/

namespace Sidlc

open BitMask

/-- The widths of the fields. -/
def BitfieldNode.widths (node : BitfieldNode) : List ℕ :=
  node.fields.map fun f => f.bits.toNat

/-- The macros denote masks that tile a number of `width` bits. -/
def MacrosTile (width : ℕ) (widths : List ℕ) (macros : List HeaderMacro) : Prop :=
  ∃ masks : List ℕ, macros.map (fun m => m.denotes.map UInt64.toNat) = masks.map some ∧
    Tiles width widths masks

/-- What is printed for one field. -/
theorem denotes_bitfieldMask (name : Bytes) {bits offset : UInt64} (hbits : bits ≠ 64)
    (hpos : 1 ≤ bits.toNat) (hsum : offset.toNat + bits.toNat ≤ 64) :
    (HeaderMacro.bitfieldMask name ((ullShiftLeft 1 bits).map (· - 1)) offset).denotes.map
      UInt64.toNat = some (mask offset.toNat bits.toNat) := by
  have hne : bits.toNat ≠ 64 := fun h => hbits (UInt64.toNat_inj.1 h)
  have hlt : bits < 64 := UInt64.lt_iff_toNat_lt.2 (by show bits.toNat < 64; omega)
  have hoffset : offset < 64 := UInt64.lt_iff_toNat_lt.2 (by show offset.toNat < 64; omega)
  have hone : ((1 : UInt64) <<< bits).toNat = 2 ^ bits.toNat := by
    have hpow : 2 ^ bits.toNat < 2 ^ 64 := Nat.pow_lt_pow_right Nat.one_lt_two (by omega)
    rw [UInt64.toNat_shiftLeft, Nat.mod_eq_of_lt (by omega : bits.toNat < 64),
      Nat.shiftLeft_eq]
    simpa using hpow
  -- the shift does not reach 64, so nothing is lost and the difference does not wrap
  have hsub : ((1 : UInt64) <<< bits - 1).toNat = 2 ^ bits.toNat - 1 := by
    have hle : (1 : UInt64) ≤ 1 <<< bits := by
      rw [UInt64.le_iff_toNat_le, hone]
      exact Nat.one_le_two_pow
    rw [UInt64.toNat_sub_of_le _ _ hle, hone]
    rfl
  have hmask : mask offset.toNat bits.toNat < 2 ^ 64 := mask_lt (by omega)
  rw [mask] at hmask
  simp only [HeaderMacro.denotes, ullShiftLeft, hlt, hoffset, if_true, Option.map_some,
    Option.bind_some]
  rw [UInt64.toNat_shiftLeft, hsub, Nat.mod_eq_of_lt (by omega : offset.toNat < 64),
    Nat.shiftLeft_eq, Nat.mod_eq_of_lt hmask, mask]

/-- A field as wide as the word has no mask. -/
theorem denotes_bitfieldMask_of_eq (name : Bytes) (offset : UInt64) :
    (HeaderMacro.bitfieldMask name ((ullShiftLeft 1 64).map (· - 1)) offset).denotes = none := by
  have hnone : ullShiftLeft 1 64 = none := by decide
  rw [hnone]
  rfl

theorem map_denotes_fieldMasks (macroPart : Bytes) {offset : UInt64}
    {fields : List BitfieldFieldNode} (hbits : ∀ f ∈ fields, f.bits ≠ 64)
    (hpos : ∀ f ∈ fields, 1 ≤ f.bits.toNat)
    (hsum : offset.toNat + (fields.map fun f => f.bits.toNat).sum ≤ 64) :
    (fieldMasks macroPart offset fields).map (fun m => m.denotes.map UInt64.toNat)
      = (masksFrom offset.toNat (fields.map fun f => f.bits.toNat)).map some := by
  induction fields generalizing offset with
  | nil => rfl
  | cons f fields ih =>
    obtain ⟨hf, hfs⟩ := List.forall_mem_cons.1 hbits
    obtain ⟨hf', hfs'⟩ := List.forall_mem_cons.1 hpos
    rw [List.map_cons, List.sum_cons] at hsum
    have hadd : (offset + f.bits).toNat = offset.toNat + f.bits.toNat := by
      rw [UInt64.toNat_add, Nat.mod_eq_of_lt (by omega)]
    rw [fieldMasks, List.map_cons, denotes_bitfieldMask _ hf hf' (by omega),
      ih hfs hfs' (by omega), List.map_cons, masksFrom, List.map_cons, hadd]

/-- The mask of an undefined shift is a gap in what the macros denote. -/
theorem none_mem_map_denotes_fieldMasks (macroPart : Bytes) (offset : UInt64)
    {fields : List BitfieldFieldNode} {f : BitfieldFieldNode} (hf : f ∈ fields)
    (hbits : f.bits = 64) :
    none ∈ (fieldMasks macroPart offset fields).map fun m => m.denotes.map UInt64.toNat := by
  induction fields generalizing offset with
  | nil => cases hf
  | cons g fields ih =>
    rw [fieldMasks, List.map_cons]
    rcases List.mem_cons.1 hf with rfl | hf
    · rw [hbits, denotes_bitfieldMask_of_eq]
      exact List.mem_cons_self
    · exact List.mem_cons_of_mem _ (ih _ hf)

/-- **The masks tile the base type exactly when no field takes all sixty-four bits.** -/
theorem bitfieldMacros_tiles_iff (macroInterfaceName : Bytes) (node : BitfieldNode) (width : ℕ)
    (hwidth : width ≤ 64) (hpos : ∀ f ∈ node.fields, 1 ≤ f.bits.toNat)
    (hsum : node.widths.sum ≤ width) :
    MacrosTile width node.widths (bitfieldMacros macroInterfaceName node) ↔
      ∀ f ∈ node.fields, f.bits ≠ 64 := by
  constructor
  · rintro ⟨masks, hmap, -⟩ f hf hbits
    have hnone := none_mem_map_denotes_fieldMasks
      (macroInterfaceName ++ ascii "_" ++ toUpper node.name ++ ascii "_") 0 hf hbits
    rw [show fieldMasks _ 0 node.fields = bitfieldMacros macroInterfaceName node from rfl,
      hmap] at hnone
    obtain ⟨m, -, hm⟩ := List.mem_map.1 hnone
    cases hm
  · intro hbits
    refine ⟨masksFrom 0 node.widths, ?_, tiles_masksFrom hsum⟩
    refine map_denotes_fieldMasks _ hbits hpos ?_
    have hzero : (0 : UInt64).toNat = 0 := rfl
    rw [hzero, Nat.zero_add]
    exact hsum.trans hwidth

/-- A bitfield with these fields. -/
def bitfieldOf (fields : List BitfieldFieldNode) : BitfieldNode :=
  { name := ascii "b", baseType := .named false 0 (ascii "u64"), annotations := [], fields }

/-- One field of sixty-four bits has no mask. -/
theorem not_bitfieldMacros_tiles_wide :
    ¬MacrosTile 64 (bitfieldOf [⟨ascii "f", 64⟩]).widths
      (bitfieldMacros (ascii "I") (bitfieldOf [⟨ascii "f", 64⟩])) := by
  rintro ⟨masks, hmap, -⟩
  have hnone : (bitfieldMacros (ascii "I") (bitfieldOf [⟨ascii "f", 64⟩])).map
      (fun m => m.denotes.map UInt64.toNat) = [none] := by
    decide +kernel
  rw [hnone] at hmap
  obtain ⟨m, -, hm⟩ := List.mem_map.1 (hmap ▸ List.mem_singleton_self none)
  cases hm

/-- Two fields that take all sixty-four bits together. -/
theorem bitfieldMacros_tiles_sample :
    MacrosTile 64 (bitfieldOf [⟨ascii "f", 1⟩, ⟨ascii "g", 63⟩]).widths
      (bitfieldMacros (ascii "I") (bitfieldOf [⟨ascii "f", 1⟩, ⟨ascii "g", 63⟩])) := by
  have hpos : ∀ f ∈ (bitfieldOf [⟨ascii "f", 1⟩, ⟨ascii "g", 63⟩]).fields,
      1 ≤ f.bits.toNat := by
    simp [bitfieldOf]
  have hne : ∀ f ∈ (bitfieldOf [⟨ascii "f", 1⟩, ⟨ascii "g", 63⟩]).fields, f.bits ≠ 64 := by
    simp [bitfieldOf]
  exact (bitfieldMacros_tiles_iff (ascii "I") (bitfieldOf [⟨ascii "f", 1⟩, ⟨ascii "g", 63⟩]) 64
    le_rfl hpos (by decide)).2 hne

end Sidlc
