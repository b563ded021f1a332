import Mathlib.Data.Nat.Bitwise
import Mathlib.Tactic.Ring

/-!
# Little-endian bytes

`bytesLE n v` is the `n`-byte little-endian form of `v` and `valueLE` reads it back; the two are
inverse on `v < 256 ^ n` (`valueLE_bytesLE`) and on `n` bytes (`bytesLE_valueLE`).
-/

namespace LittleEndian

/-- The low `n` bytes of `v`, least significant first. -/
def bytesLE : Nat → Nat → List UInt8
  | 0, _ => []
  | n + 1, v => UInt8.ofNat v :: bytesLE n (v / 256)

/-- The number whose little-endian bytes are given. -/
def valueLE : List UInt8 → Nat
  | [] => 0
  | b :: bs => b.toNat + 256 * valueLE bs

@[simp] theorem length_bytesLE (n v : Nat) : (bytesLE n v).length = n := by
  induction n generalizing v with
  | zero => rfl
  | succ n ih => simp [bytesLE, ih]

theorem valueLE_lt (bs : List UInt8) : valueLE bs < 256 ^ bs.length := by
  induction bs with
  | nil => simp [valueLE]
  | cons b bs ih =>
    have hb := b.toNat_lt
    rw [valueLE, List.length_cons, pow_succ]
    omega

theorem valueLE_bytesLE (n v : Nat) (hv : v < 256 ^ n) : valueLE (bytesLE n v) = v := by
  induction n generalizing v with
  | zero => simp at hv; simp [bytesLE, valueLE, hv]
  | succ n ih =>
    have hdiv : v / 256 < 256 ^ n := by
      rw [pow_succ] at hv
      exact Nat.div_lt_of_lt_mul (by rwa [Nat.mul_comm])
    rw [bytesLE, valueLE, ih _ hdiv, UInt8.toNat_ofNat']
    omega

/-- Only the low bytes count. -/
theorem bytesLE_mod (n v : Nat) : bytesLE n (v % 256 ^ n) = bytesLE n v := by
  induction n generalizing v with
  | zero => rfl
  | succ n ih =>
    have hlow : UInt8.ofNat (v % 256 ^ (n + 1)) = UInt8.ofNat v := by
      apply UInt8.toNat_inj.1
      rw [UInt8.toNat_ofNat', UInt8.toNat_ofNat', Nat.mod_mod_of_dvd]
      exact dvd_pow_self 256 n.succ_ne_zero
    have hdiv : v % 256 ^ (n + 1) / 256 = v / 256 % 256 ^ n := by
      rw [pow_succ, Nat.mul_comm, Nat.mod_mul_right_div_self]
    rw [bytesLE, bytesLE, hlow, hdiv, ih]

theorem bytesLE_valueLE (bs : List UInt8) : bytesLE bs.length (valueLE bs) = bs := by
  induction bs with
  | nil => rfl
  | cons b bs ih =>
    have hb := b.toNat_lt
    have hdiv : (b.toNat + 256 * valueLE bs) / 256 = valueLE bs := by omega
    have hlow : UInt8.ofNat (b.toNat + 256 * valueLE bs) = b := by
      apply UInt8.toNat_inj.1
      rw [UInt8.toNat_ofNat']
      omega
    rw [List.length_cons, valueLE, bytesLE, hdiv, ih, hlow]

theorem valueLE_append (bs cs : List UInt8) :
    valueLE (bs ++ cs) = valueLE bs + 256 ^ bs.length * valueLE cs := by
  induction bs with
  | nil => simp [valueLE]
  | cons b bs ih =>
    rw [List.cons_append, valueLE, valueLE, ih, List.length_cons, pow_succ]
    ring

/-- Or-ing a byte in above the bits already there adds it. -/
theorem or_shiftLeft (a b i : Nat) (ha : a < 2 ^ i) : a ||| b <<< i = a + b * 2 ^ i := by
  rw [Nat.or_comm, ← Nat.shiftLeft_add_eq_or_of_lt ha, Nat.shiftLeft_eq, Nat.add_comm]

/-- The `i`-th byte of `v`, cut out by a shift. -/
theorem bytesLE_eq_map_range (n v : Nat) :
    bytesLE n v = (List.range n).map fun i => UInt8.ofNat (v >>> (8 * i)) := by
  induction n generalizing v with
  | zero => rfl
  | succ n ih =>
    rw [bytesLE, ih, List.range_succ_eq_map, List.map_cons, List.map_map]
    congr 1
    refine List.map_congr_left fun i _ => ?_
    have hpow : 2 ^ (8 * i.succ) = 256 * 2 ^ (8 * i) := by rw [Nat.mul_succ, pow_add]; ring
    rw [Function.comp, Nat.shiftRight_eq_div_pow, Nat.shiftRight_eq_div_pow, Nat.div_div_eq_div_mul,
      hpow]

end LittleEndian
