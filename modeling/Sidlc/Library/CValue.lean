import Mathlib.Algebra.Order.Ring.Int
import Mathlib.Data.List.Basic

/-!
# Values and conversions of C

Just enough of C to follow a value through conversions between integers and pointers of a machine
with eight-byte words: a value of a scalar type of at most eight bytes survives the way through
`unsigned long` and `long` (`cast_toWord`).
-/

namespace CValue

abbrev Address := BitVec 64

/-- A type, as far as conversions and sizes tell types apart. -/
inductive Kind where
  | integer (size : Nat) (signed : Bool)
  | pointer
  /-- A structure with a tag, which is converted to its own type only. -/
  | object (tag : List UInt8) (size : Nat)
  deriving DecidableEq

/-- A structure is taken with its bytes. -/
inductive Value where
  | integer (n : Int)
  | pointer (a : Address)
  | object (tag bytes : List UInt8)
  deriving DecidableEq, Inhabited

/-- The value that an integer type of `size` bytes keeps of `n`. -/
def wrap (size : Nat) (signed : Bool) (n : Int) : Int :=
  if signed then n.bmod (2 ^ (8 * size)) else n % 2 ^ (8 * size)

def InRange (size : Nat) (signed : Bool) (n : Int) : Prop :=
  if signed then -2 ^ (8 * size) ≤ n * 2 ∧ n * 2 < 2 ^ (8 * size)
  else 0 ≤ n ∧ n < 2 ^ (8 * size)

/-- `v` is a value of the type. -/
def HasKind (k : Kind) (v : Value) : Prop :=
  match k, v with
  | .integer size signed, .integer n => InRange size signed n
  | .pointer, .pointer _ => True
  | .object tag size, .object tag' bytes => tag' = tag ∧ bytes.length = size
  | _, _ => False

instance (k : Kind) (v : Value) : Decidable (HasKind k v) := by
  unfold HasKind InRange
  split <;> infer_instance

/-- Integers of at most eight bytes, and pointers. -/
def Kind.IsScalar : Kind → Prop
  | integer size _ => size ≤ 8
  | pointer => True
  | object _ _ => False

instance (k : Kind) : Decidable k.IsScalar := by
  unfold Kind.IsScalar
  split <;> infer_instance

/-- The conversion of a value to a type, where C has one. -/
def cast : Kind → Value → Option Value
  | .integer size signed, .integer n => some (.integer (wrap size signed n))
  | .integer size signed, .pointer a => some (.integer (wrap size signed a.toNat))
  | .pointer, .integer n => some (.pointer (BitVec.ofInt 64 n))
  | .pointer, .pointer a => some (.pointer a)
  | .object tag _, .object tag' bytes => if tag' = tag then some (.object tag' bytes) else none
  | _, _ => none

def unsignedLong : Kind :=
  .integer 8 false

def long : Kind :=
  .integer 8 true

/-- `uintptr_t` -/
def uintptr : Kind :=
  .integer 8 false

/-- A value cast to `unsigned long`, or a pointer, as an argument that is received as a `long`. -/
def toWord (v : Value) : Option Value :=
  (cast unsignedLong v).bind (cast long)

/-- The pointer that `(T *)(uintptr_t)word` is. -/
def toPointer (word : Value) : Option Address :=
  match (cast uintptr word).bind (cast .pointer) with
  | some (.pointer a) => some a
  | _ => none

/-! ### Integers -/

theorem wrap_congr {size : Nat} (signed : Bool) {m n : Int}
    (h : m % 2 ^ (8 * size) = n % 2 ^ (8 * size)) : wrap size signed m = wrap size signed n := by
  cases signed with
  | false => exact h
  | true =>
    have hcast : ((2 ^ (8 * size) : Nat) : Int) = 2 ^ (8 * size) := by push_cast; rfl
    show m.bmod (2 ^ (8 * size)) = n.bmod (2 ^ (8 * size))
    rw [← Int.emod_bmod m, ← Int.emod_bmod n, hcast, h]

theorem wrap_of_inRange {size : Nat} {signed : Bool} {n : Int} (h : InRange size signed n) :
    wrap size signed n = n := by
  cases signed with
  | false =>
    obtain ⟨hle, hlt⟩ : 0 ≤ n ∧ n < 2 ^ (8 * size) := h
    exact Int.emod_eq_of_lt hle hlt
  | true =>
    obtain ⟨hle, hlt⟩ : -2 ^ (8 * size) ≤ n * 2 ∧ n * 2 < 2 ^ (8 * size) := h
    refine Int.bmod_eq_of_le_mul_two ?_ ?_
    · push_cast
      exact hle
    · push_cast
      exact hlt

theorem inRange_wrap (size : Nat) (signed : Bool) (n : Int) :
    InRange size signed (wrap size signed n) := by
  have hpos : (0 : Int) < 2 ^ (8 * size) := Int.pow_pos (by decide)
  have hcast : ((2 ^ (8 * size) : Nat) : Int) = 2 ^ (8 * size) := by push_cast; rfl
  cases signed with
  | false => exact ⟨Int.emod_nonneg n hpos.ne', Int.emod_lt_of_pos n hpos⟩
  | true =>
    have hle := Int.le_bmod (x := n) (Nat.two_pow_pos (8 * size))
    have hlt := Int.bmod_lt (x := n) (Nat.two_pow_pos (8 * size))
    rw [hcast] at hle hlt
    show -2 ^ (8 * size) ≤ n.bmod (2 ^ (8 * size)) * 2 ∧
      n.bmod (2 ^ (8 * size)) * 2 < 2 ^ (8 * size)
    omega

/-- The eight-byte types in between lose nothing of a value that fits. -/
theorem wrap_wrap_long {size : Nat} (hsize : size ≤ 8) (signed : Bool) (n : Int) :
    wrap size signed (wrap 8 true (wrap 8 false n)) = wrap size signed n := by
  refine wrap_congr signed ?_
  have hdvd : (2 ^ (8 * size) : Int) ∣ 2 ^ (8 * 8) := pow_dvd_pow 2 (by omega)
  have hcast : ((2 ^ (8 * 8) : Nat) : Int) = 2 ^ (8 * 8) := rfl
  have hlong : wrap 8 true (wrap 8 false n) % 2 ^ (8 * 8) = n % 2 ^ (8 * 8) := by
    show (n % 2 ^ (8 * 8)).bmod (2 ^ (8 * 8)) % 2 ^ (8 * 8) = _
    rw [← hcast, Int.bmod_emod, hcast, Int.emod_emod]
  rw [← Int.emod_emod_of_dvd _ hdvd, hlong, Int.emod_emod_of_dvd _ hdvd]

theorem ofInt_wrap (size : Nat) (signed : Bool) (n : Int) :
    BitVec.ofInt (8 * size) (wrap size signed n) = BitVec.ofInt (8 * size) n := by
  have hcast : ((2 ^ (8 * size) : Nat) : Int) = 2 ^ (8 * size) := by push_cast; rfl
  apply BitVec.eq_of_toInt_eq
  rw [BitVec.toInt_ofInt, BitVec.toInt_ofInt]
  cases signed with
  | false =>
    show (n % 2 ^ (8 * size)).bmod (2 ^ (8 * size)) = n.bmod (2 ^ (8 * size))
    rw [← hcast, Int.emod_bmod]
  | true => exact Int.bmod_bmod

theorem ofInt_wrap_long (a : Address) (signed : Bool) :
    BitVec.ofInt 64 (wrap 8 signed (wrap 8 true (wrap 8 false a.toNat))) = a := by
  rw [wrap_wrap_long le_rfl]
  have h : BitVec.ofInt 64 (wrap 8 signed a.toNat) = BitVec.ofInt 64 a.toNat :=
    ofInt_wrap 8 signed a.toNat
  rw [h]
  simp

/-! ### Conversions -/

/-- **A scalar that fits into a word is what it was after the way through it.** -/
theorem cast_toWord {k : Kind} {v : Value} (hk : k.IsScalar) (hv : HasKind k v) :
    (toWord v).bind (cast k) = some v := by
  cases k with
  | integer size signed =>
    cases v with
    | integer n =>
      show some (Value.integer (wrap size signed (wrap 8 true (wrap 8 false n)))) = _
      rw [wrap_wrap_long hk, wrap_of_inRange hv]
    | pointer a => exact absurd hv id
    | object tag bytes => exact absurd hv id
  | pointer =>
    cases v with
    | integer n => exact absurd hv id
    | pointer a =>
      show some (Value.pointer (BitVec.ofInt 64 (wrap 8 true (wrap 8 false a.toNat)))) = _
      have h := ofInt_wrap_long a true
      rw [wrap_wrap_long le_rfl] at h
      have hself : wrap 8 true (wrap 8 false a.toNat) = wrap 8 true a.toNat := by
        refine wrap_congr true ?_
        exact Int.emod_emod _ _
      rw [hself, h]
    | object tag bytes => exact absurd hv id
  | object tag size => exact absurd hk id

/-- A value keeps its value when it is converted to its own type. -/
theorem cast_self {k : Kind} {v : Value} (hv : HasKind k v) : cast k v = some v := by
  cases k with
  | integer size signed =>
    cases v with
    | integer n => exact congrArg (fun n => some (Value.integer n)) (wrap_of_inRange hv)
    | pointer a => exact absurd hv id
    | object tag bytes => exact absurd hv id
  | pointer =>
    cases v with
    | integer n => exact absurd hv id
    | pointer a => rfl
    | object tag bytes => exact absurd hv id
  | object tag size =>
    cases v with
    | integer n => exact absurd hv id
    | pointer a => exact absurd hv id
    | object tag' bytes => exact if_pos hv.1

/-- A pointer passed through a word. -/
theorem exists_toWord_pointer (a : Address) :
    ∃ word, toWord (.pointer a) = some word ∧ toPointer word = some a ∧
      (cast uintptr word).bind (cast .pointer) = some (.pointer a) := by
  have h : (cast uintptr (.integer (wrap 8 true (wrap 8 false a.toNat)))).bind (cast .pointer)
      = some (.pointer a) :=
    congrArg (fun b => some (Value.pointer b)) (ofInt_wrap_long a false)
  exact ⟨.integer (wrap 8 true (wrap 8 false a.toNat)), rfl, by rw [toPointer, h], h⟩

theorem exists_of_hasKind_pointer {v : Value} (h : HasKind .pointer v) : ∃ a, v = .pointer a := by
  cases v with
  | integer n => exact absurd h id
  | pointer a => exact ⟨a, rfl⟩
  | object tag bytes => exact absurd h id

/-- A scalar is converted to a word. -/
theorem exists_toWord {k : Kind} {v : Value} (hk : k.IsScalar) (hv : HasKind k v) :
    ∃ w, toWord v = some w := by
  cases v with
  | integer n => exact ⟨_, rfl⟩
  | pointer a => exact ⟨_, rfl⟩
  | object tag bytes =>
    cases k with
    | object tag size => exact absurd hk id
    | integer size signed => exact absurd hv id
    | pointer => exact absurd hv id

/-- What is passed as an argument in a register. -/
def IsRegister (v : Value) : Prop :=
  ∃ n, v = .integer n

theorem isRegister_toWord {v w : Value} (h : toWord v = some w) : IsRegister w := by
  cases v with
  | integer n => exact ⟨_, (Option.some.inj h).symm⟩
  | pointer a => exact ⟨_, (Option.some.inj h).symm⟩
  | object tag bytes => cases h

/-- A word is converted to every scalar type. -/
theorem IsRegister.exists_cast {k : Kind} (hk : k.IsScalar) {w : Value} (hw : IsRegister w) :
    ∃ v, cast k w = some v := by
  obtain ⟨n, rfl⟩ := hw
  cases k with
  | integer size signed => exact ⟨_, rfl⟩
  | pointer => exact ⟨_, rfl⟩
  | object tag size => exact absurd hk id

/-- A word, as an integer as wide as a pointer, and as a pointer. -/
theorem IsRegister.exists_pointer {w : Value} (hw : IsRegister w) :
    ∃ a n, toPointer w = some a ∧ cast uintptr w = some n ∧ IsRegister n ∧
      cast .pointer n = some (.pointer a) := by
  obtain ⟨n, rfl⟩ := hw
  exact ⟨_, _, rfl, rfl, ⟨_, rfl⟩, rfl⟩

/-- The address that a pointer is after the way through a word. -/
theorem toPointer_of_toWord {a : Address} {w : Value} (h : toWord (.pointer a) = some w) :
    toPointer w = some a := by
  obtain ⟨w', hw', ha, -⟩ := exists_toWord_pointer a
  obtain rfl : w' = w := Option.some.inj (hw'.symm.trans h)
  exact ha

end CValue
