import Mathlib.Data.Nat.Bitwise
import Mathlib.Algebra.BigOperators.Group.List.Basic

/-!
# Runs of bits

`mask offset width` has the `width` bits from `offset` on. Runs laid one behind the other are
disjoint and together make up one run (`masksFrom`).
-/

namespace BitMask

/-- The number with the `width` bits from `offset` on. -/
def mask (offset width : ℕ) : ℕ :=
  (2 ^ width - 1) * 2 ^ offset

theorem testBit_mask (offset width i : ℕ) :
    (mask offset width).testBit i = decide (offset ≤ i ∧ i < offset + width) := by
  rw [mask, Nat.testBit_mul_two_pow, Nat.testBit_two_pow_sub_one]
  by_cases h : offset ≤ i
  · have hlt : i - offset < width ↔ i < offset + width := by omega
    simp [h, hlt]
  · simp [h]

theorem mask_lt {offset width total : ℕ} (h : offset + width ≤ total) :
    mask offset width < 2 ^ total := by
  have hpos := Nat.two_pow_pos offset
  have hlt : 2 ^ width - 1 < 2 ^ width := Nat.sub_lt (Nat.two_pow_pos width) Nat.one_pos
  calc mask offset width < 2 ^ width * 2 ^ offset := Nat.mul_lt_mul_of_pos_right hlt hpos
    _ = 2 ^ (offset + width) := by rw [Nat.mul_comm, pow_add]
    _ ≤ 2 ^ total := Nat.pow_le_pow_right Nat.two_pos h

/-- Runs that do not overlap have no bit in common. -/
theorem mask_and_mask {a b c d : ℕ} (h : a + b ≤ c) : mask a b &&& mask c d = 0 := by
  apply Nat.eq_of_testBit_eq
  intro i
  rw [Nat.testBit_and, testBit_mask, testBit_mask, Nat.zero_testBit, ← Bool.decide_and]
  have hno : ¬((a ≤ i ∧ i < a + b) ∧ c ≤ i ∧ i < c + d) := by omega
  exact decide_eq_false hno

/-- Neighbouring runs make one run. -/
theorem mask_or_mask (a b c : ℕ) : mask a b ||| mask (a + b) c = mask a (b + c) := by
  apply Nat.eq_of_testBit_eq
  intro i
  rw [Nat.testBit_or, testBit_mask, testBit_mask, testBit_mask, ← Bool.decide_or]
  have hiff : (a ≤ i ∧ i < a + b) ∨ (a + b ≤ i ∧ i < a + b + c) ↔ a ≤ i ∧ i < a + (b + c) := by
    omega
  exact decide_eq_decide.2 hiff

/-- The number of bits set below `2 ^ total`. -/
def bitCount (total n : ℕ) : ℕ :=
  (List.range total).countP n.testBit

theorem bitCount_mask {offset width total : ℕ} (h : offset + width ≤ total) :
    bitCount total (mask offset width) = width := by
  -- the bits below, in and above the mask
  have hsplit : List.range total =
      List.range' 0 offset ++ (List.range' offset width ++
        List.range' (offset + width) (total - offset - width)) := by
    rw [List.range_eq_range', List.range'_append_1, List.range'_eq_append_iff]
    refine ⟨offset, by omega, rfl, ?_⟩
    congr 1 <;> omega
  have hin : (List.range' offset width).countP (mask offset width).testBit = width := by
    have hall : ∀ i ∈ List.range' offset width, (mask offset width).testBit i = true := by
      intro i hi
      rw [testBit_mask, decide_eq_true_eq]
      have := List.mem_range'_1.1 hi
      omega
    rw [List.countP_eq_length.2 hall, List.length_range']
  have hout : ∀ xs : List ℕ, (∀ i ∈ xs, ¬(offset ≤ i ∧ i < offset + width)) →
      xs.countP (mask offset width).testBit = 0 := by
    intro xs hxs
    rw [List.countP_eq_zero]
    intro i hi
    rw [testBit_mask, decide_eq_true_eq]
    exact hxs i hi
  rw [bitCount, hsplit, List.countP_append, List.countP_append, hin, hout, hout]
  · omega
  · intro i hi
    have := List.mem_range'_1.1 hi
    omega
  · intro i hi
    have := List.mem_range'_1.1 hi
    omega

/-! ### Runs one behind the other -/

/-- The masks of fields of the given widths, the first of them at `offset`. -/
def masksFrom (offset : ℕ) : List ℕ → List ℕ
  | [] => []
  | b :: bs => mask offset b :: masksFrom (offset + b) bs

theorem getElem?_masksFrom (offset : ℕ) (widths : List ℕ) (i : ℕ) :
    (masksFrom offset widths)[i]? = widths[i]?.map (mask (offset + (widths.take i).sum)) := by
  induction widths generalizing offset i with
  | nil => rfl
  | cons b bs ih =>
    cases i with
    | zero => simp [masksFrom]
    | succ i =>
      rw [masksFrom, List.getElem?_cons_succ, ih, List.getElem?_cons_succ, List.take_succ_cons,
        List.sum_cons, Nat.add_assoc]

theorem le_of_mem_masksFrom {offset : ℕ} {widths : List ℕ} {m : ℕ}
    (h : m ∈ masksFrom offset widths) :
    ∃ o b, m = mask o b ∧ offset ≤ o ∧ o + b ≤ offset + widths.sum := by
  induction widths generalizing offset with
  | nil => cases h
  | cons b bs ih =>
    rw [List.sum_cons]
    rcases List.mem_cons.1 h with rfl | h
    · exact ⟨offset, b, rfl, le_rfl, by omega⟩
    · obtain ⟨o, c, hm, hle, hadd⟩ := ih h
      exact ⟨o, c, hm, by omega, by omega⟩

theorem pairwise_masksFrom (offset : ℕ) (widths : List ℕ) :
    (masksFrom offset widths).Pairwise fun a b => a &&& b = 0 := by
  induction widths generalizing offset with
  | nil => exact List.Pairwise.nil
  | cons b bs ih =>
    refine List.pairwise_cons.2 ⟨?_, ih _⟩
    intro m hm
    obtain ⟨o, c, rfl, hle, -⟩ := le_of_mem_masksFrom hm
    exact mask_and_mask hle

theorem map_bitCount_masksFrom {offset total : ℕ} {widths : List ℕ}
    (h : offset + widths.sum ≤ total) :
    (masksFrom offset widths).map (bitCount total) = widths := by
  induction widths generalizing offset with
  | nil => rfl
  | cons b bs ih =>
    rw [List.sum_cons] at h
    rw [masksFrom, List.map_cons, bitCount_mask (by omega), ih (by omega)]

/-- All runs together. -/
theorem foldr_or_masksFrom (offset : ℕ) (widths : List ℕ) :
    (masksFrom offset widths).foldr (· ||| ·) 0 = mask offset widths.sum := by
  induction widths generalizing offset with
  | nil => simp [masksFrom, mask]
  | cons b bs ih => rw [masksFrom, List.foldr_cons, ih, mask_or_mask, List.sum_cons]

/-- The masks are those of fields of these widths, laid from bit `0` of a number of `total` bits. -/
structure Tiles (total : ℕ) (widths masks : List ℕ) : Prop where
  value : ∀ i : ℕ, masks[i]? = widths[i]?.map fun b => (2 ^ b - 1) * 2 ^ (widths.take i).sum
  disjoint : masks.Pairwise fun a b => a &&& b = 0
  bitCount : masks.map (bitCount total) = widths
  lt : ∀ m ∈ masks, m < 2 ^ total
  union : masks.foldr (· ||| ·) 0 = 2 ^ widths.sum - 1

theorem tiles_masksFrom {total : ℕ} {widths : List ℕ} (h : widths.sum ≤ total) :
    Tiles total widths (masksFrom 0 widths) where
  value i := by
    rw [getElem?_masksFrom, Nat.zero_add]
    rfl
  disjoint := pairwise_masksFrom 0 widths
  bitCount := map_bitCount_masksFrom (by omega)
  lt m hm := by
    obtain ⟨o, b, rfl, -, hle⟩ := le_of_mem_masksFrom hm
    exact mask_lt (by omega)
  union := by
    rw [foldr_or_masksFrom, mask, pow_zero, Nat.mul_one]

end BitMask
