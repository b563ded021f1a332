import Sidlc.Equiv.Printed
import Sidlc.Uuid

/-!
# The textual form of a UUID

`from_string` undoes `to_string`, and the printed form is valid.
-/

namespace Sidlc

namespace Uuid

/-! ### One byte -/

theorem hexDigit_spec : ∀ b : UInt8, guidEncoder (b &&& 0x0f) ≠ 45 ∧
    isHex (guidEncoder (b &&& 0x0f)) = true ∧ guidEncoder (b &&& 0x0f) ≠ 123 ∧
    guidEncoder (b &&& 0x0f) ≠ chr '"' := by
  decide +kernel

theorem hex2char_spec : ∀ b : UInt8,
    (hex2char (guidEncoder (b >>> 4 &&& 0x0f)) <<< 4)
      ||| hex2char (guidEncoder (b &&& 0x0f)) = b := by
  decide +kernel

/-- Two digits fill one byte. -/
theorem foldlM_hexByte (b : UInt8) {index : Nat} (h : index < 16) (data : UuidBytes) :
    (hexByte b).foldlM scanStep ⟨true, index, data⟩
      = some ⟨true, index + 1, data.setIfInBounds index b⟩ := by
  obtain ⟨hhyphen, hhex, -⟩ := hexDigit_spec (b >>> 4)
  obtain ⟨hhyphen', hhex', -⟩ := hexDigit_spec b
  have hindex : ¬ 16 ≤ index := by omega
  have hfirst : scanStep ⟨true, index, data⟩ (guidEncoder (b >>> 4 &&& 0x0f))
      = some ⟨false, index,
          data.setIfInBounds index (hex2char (guidEncoder (b >>> 4 &&& 0x0f)) <<< 4)⟩ := by
    simp [scanStep, hhyphen, hhex, hindex]
  have hsecond (data : UuidBytes) : scanStep ⟨false, index, data⟩ (guidEncoder (b &&& 0x0f))
      = some ⟨true, index + 1, data.setIfInBounds index
          (data.toList.getD index 0 ||| hex2char (guidEncoder (b &&& 0x0f)))⟩ := by
    simp [scanStep, hhyphen', hhex', hindex]
  have hread (c : UInt8) : (data.setIfInBounds index c).toList.getD index 0 = c := by
    simp [List.getD, h]
  rw [hexByte, List.foldlM_cons, hfirst]
  show (List.foldlM scanStep _ [guidEncoder (b &&& 0x0f)]) = _
  rw [List.foldlM_cons, hsecond, hread, hex2char_spec]
  simp

/-! ### All bytes -/

/-- The text of the byte at an index, with the hyphen before it. -/
def piece (id : UuidBytes) (index : Nat) : Bytes :=
  (if index = 4 ∨ index = 6 ∨ index = 8 ∨ index = 10 then [45] else [])
    ++ hexByte (id.toList.getD index 0)

theorem foldlM_piece (id : UuidBytes) {index : Nat} (h : index < 16) (data : UuidBytes) :
    (piece id index).foldlM scanStep ⟨true, index, data⟩
      = some ⟨true, index + 1, data.setIfInBounds index id[index]⟩ := by
  have hbyte : id.toList.getD index 0 = id[index] := by simp [List.getD, h]
  rw [piece, hbyte]
  split_ifs
  · exact foldlM_hexByte _ h data
  · exact foldlM_hexByte _ h data

/-- After `k` bytes the first `k` places are filled. -/
theorem foldlM_pieces (id : UuidBytes) {k : Nat} (hk : k ≤ 16) :
    ∃ data : UuidBytes,
      ((List.range k).flatMap (piece id)).foldlM scanStep {} = some ⟨true, k, data⟩ ∧
        ∀ (j : Nat) (hj : j < 16), j < k → data[j] = id[j] := by
  induction k with
  | zero => exact ⟨_, rfl, fun j _ hj => absurd hj (Nat.not_lt_zero j)⟩
  | succ k ih =>
    obtain ⟨data, hdata, hfilled⟩ := ih (by omega)
    refine ⟨data.setIfInBounds k id[k], ?_, fun j hj hjk => ?_⟩
    · rw [List.range_succ, List.flatMap_append, List.flatMap_singleton, List.foldlM_append, hdata]
      exact foldlM_piece id (by omega) data
    · by_cases hlast : j = k
      · subst hlast
        simp
      · rw [Vector.getElem_setIfInBounds_ne _ (fun h => hlast h.symm)]
        exact hfilled j hj (by omega)

theorem scan_toString (id : UuidBytes) : scan (toString id) = some ⟨true, 16, id⟩ := by
  obtain ⟨data, hdata, hfilled⟩ := foldlM_pieces id (Nat.le_refl 16)
  have hid : data = id := Vector.ext fun j hj => hfilled j hj hj
  have hcons : toString id
      = guidEncoder (id.toList.getD 0 0 >>> 4 &&& 0x0f) :: (toString id).tail := rfl
  have hbrace := (hexDigit_spec (id.toList.getD 0 0 >>> 4)).2.2.1
  rw [hcons, scan, if_neg hbrace, ← hcons]
  rw [hid] at hdata
  exact hdata

/-- The printed form is accepted. -/
theorem isValidUuid_toString (id : UuidBytes) : isValidUuid (toString id) = true := by
  rw [isValidUuid, scan_toString]
  rfl

/-- **`from_string` undoes `to_string`.** -/
theorem fromString_toString (id : UuidBytes) : fromString (toString id) = some id := by
  rw [fromString, scan_toString]
  rfl

/-- The printed form can stand in a string literal. -/
theorem not_quote_of_mem_toString {id : UuidBytes} {c : UInt8} (h : c ∈ toString id) :
    c ≠ chr '"' := by
  rw [toString, List.mem_flatMap] at h
  obtain ⟨index, -, hc⟩ := h
  rcases List.mem_append.1 hc with hc | hc
  · split_ifs at hc
    · rw [List.mem_singleton.1 hc]
      decide
    · exact absurd hc List.not_mem_nil
  · rw [hexByte, List.mem_cons, List.mem_singleton] at hc
    rcases hc with rfl | rfl
    · exact (hexDigit_spec _).2.2.2
    · exact (hexDigit_spec _).2.2.2

end Uuid

end Sidlc
