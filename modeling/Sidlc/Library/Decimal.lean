import Mathlib.Data.List.Induction
import Mathlib.Tactic.Ring

/-!
# Decimal numerals

`numeral n` is the decimal form of `n` in ASCII and `decimalValue` reads one back
(`decimalValue_numeral`). A numeral is never empty and consists of digits only.
-/

namespace Decimal

/-- The number a string of ASCII digits stands for. -/
def decimalValue (text : List UInt8) : Nat :=
  text.foldl (fun value c => 10 * value + (c.toNat - 48)) 0

/-- An ASCII digit. -/
def IsDigit (c : UInt8) : Prop :=
  48 ≤ c.toNat ∧ c.toNat ≤ 57

/-- The last digit of `n`. -/
def lastDigit (n : Nat) : UInt8 :=
  UInt8.ofNat (48 + n % 10)

/-- At most `fuel` digits of `n`. -/
def numeralFuel : Nat → Nat → List UInt8
  | 0, _ => []
  | fuel + 1, n => (if n / 10 = 0 then [] else numeralFuel fuel (n / 10)) ++ [lastDigit n]

/-- The decimal form of `n`. -/
def numeral (n : Nat) : List UInt8 :=
  numeralFuel (n + 1) n

theorem toNat_lastDigit (n : Nat) : (lastDigit n).toNat = 48 + n % 10 := by
  rw [lastDigit, UInt8.toNat_ofNat']
  omega

theorem isDigit_lastDigit (n : Nat) : IsDigit (lastDigit n) := by
  rw [IsDigit, toNat_lastDigit]
  omega

theorem decimalValue_append_singleton (text : List UInt8) (c : UInt8) :
    decimalValue (text ++ [c]) = 10 * decimalValue text + (c.toNat - 48) := by
  rw [decimalValue, List.foldl_append]
  rfl

theorem decimalValue_numeralFuel (fuel n : Nat) (h : n < fuel) :
    decimalValue (numeralFuel fuel n) = n := by
  induction fuel generalizing n with
  | zero => omega
  | succ fuel ih =>
    rw [numeralFuel, decimalValue_append_singleton, toNat_lastDigit]
    by_cases h0 : n / 10 = 0
    · rw [if_pos h0]
      change 10 * 0 + _ = _
      omega
    · rw [if_neg h0, ih _ (by omega)]
      omega

/-- The decimal form reads back. -/
theorem decimalValue_numeral (n : Nat) : decimalValue (numeral n) = n :=
  decimalValue_numeralFuel _ _ n.lt_succ_self

theorem isDigit_numeralFuel (fuel n : Nat) : ∀ c ∈ numeralFuel fuel n, IsDigit c := by
  induction fuel generalizing n with
  | zero => simp [numeralFuel]
  | succ fuel ih =>
    intro c hc
    rw [numeralFuel, List.mem_append, List.mem_singleton] at hc
    rcases hc with hc | rfl
    · split_ifs at hc
      · simp at hc
      · exact ih _ c hc
    · exact isDigit_lastDigit n

theorem isDigit_numeral (n : Nat) : ∀ c ∈ numeral n, IsDigit c :=
  isDigit_numeralFuel _ n

theorem numeral_ne_nil (n : Nat) : numeral n ≠ [] := by
  simp [numeral, numeralFuel]

/-- Only the numeral of `0` starts with a `0`. -/
theorem numeralFuel_head (fuel n : Nat) (h : n < fuel) (hn : n ≠ 0) :
    ∃ c cs, numeralFuel fuel n = c :: cs ∧ c ≠ 48 := by
  induction fuel generalizing n with
  | zero => omega
  | succ fuel ih =>
    rw [numeralFuel]
    by_cases h0 : n / 10 = 0
    · refine ⟨lastDigit n, [], by rw [if_pos h0]; rfl, fun hc => ?_⟩
      have hval := toNat_lastDigit n
      rw [hc] at hval
      change 48 = _ at hval
      omega
    · obtain ⟨c, cs, hcs, hc⟩ := ih _ (by omega) h0
      exact ⟨c, cs ++ [lastDigit n], by rw [if_neg h0, hcs]; rfl, hc⟩

theorem numeral_head {n : Nat} (hn : n ≠ 0) : ∃ c cs, numeral n = c :: cs ∧ c ≠ 48 :=
  numeralFuel_head _ n n.lt_succ_self hn

end Decimal
