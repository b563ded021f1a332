import Sidlc.Library.CValue
import Sidlc.Library.LittleEndian

/-!
# Memory of C

Memory holds a byte at each address. A value of a type is stored as bytes, least significant first
(`represent`), and what is read at a type is a value of it, whatever has been stored there
(`interpret`). Stores reach the bytes of their object and no others, so that objects which overlap
see each other's stores.
-/

namespace CValue

open LittleEndian

/-! ### Bytes of values -/

def Kind.size : Kind → Nat
  | integer size _ => size
  | pointer => 8
  | object _ size => size

/-- The bytes of a value of a type. -/
def represent : Kind → Value → List UInt8
  | .integer size _, .integer n => bytesLE size (n % 2 ^ (8 * size)).toNat
  | .pointer, .pointer a => bytesLE 8 a.toNat
  | .object _ _, .object _ bytes => bytes
  | k, _ => List.replicate k.size 0

/-- The value that bytes are for a type. -/
def interpret : Kind → List UInt8 → Value
  | .integer size signed, bytes => .integer (wrap size signed (valueLE bytes))
  | .pointer, bytes => .pointer (BitVec.ofNat 64 (valueLE bytes))
  | .object tag _, bytes => .object tag bytes

theorem pow_bytes (size : Nat) : 256 ^ size = 2 ^ (8 * size) := by
  rw [pow_mul]
  norm_num

theorem length_represent {k : Kind} {v : Value} (h : HasKind k v) :
    (represent k v).length = k.size := by
  cases k with
  | integer size signed =>
    cases v with
    | integer n => exact length_bytesLE size _
    | pointer a => exact absurd h id
    | object tag bytes => exact absurd h id
  | pointer =>
    cases v with
    | integer n => exact absurd h id
    | pointer a => exact length_bytesLE 8 _
    | object tag bytes => exact absurd h id
  | object tag size =>
    cases v with
    | integer n => exact absurd h id
    | pointer a => exact absurd h id
    | object tag' bytes => exact h.2

/-- **What is read is what was stored.** -/
theorem interpret_represent {k : Kind} {v : Value} (h : HasKind k v) :
    interpret k (represent k v) = v := by
  cases k with
  | integer size signed =>
    cases v with
    | integer n =>
      have hpos : (0 : Int) < 2 ^ (8 * size) := Int.pow_pos (by decide)
      have hnonneg := Int.emod_nonneg n hpos.ne'
      have hlt : (n % 2 ^ (8 * size)).toNat < 256 ^ size := by
        rw [pow_bytes, Int.toNat_lt hnonneg]
        push_cast
        exact Int.emod_lt_of_pos n hpos
      show Value.integer (wrap size signed (valueLE (bytesLE size _))) = _
      rw [valueLE_bytesLE _ _ hlt, Int.toNat_of_nonneg hnonneg,
        wrap_congr signed (Int.emod_emod n _), wrap_of_inRange h]
    | pointer a => exact absurd h id
    | object tag bytes => exact absurd h id
  | pointer =>
    cases v with
    | integer n => exact absurd h id
    | pointer a =>
      show Value.pointer (BitVec.ofNat 64 (valueLE (bytesLE 8 a.toNat))) = _
      rw [valueLE_bytesLE _ _ a.isLt, BitVec.ofNat_toNat, BitVec.setWidth_eq]
    | object tag bytes => exact absurd h id
  | object tag size =>
    cases v with
    | integer n => exact absurd h id
    | pointer a => exact absurd h id
    | object tag' bytes => rw [represent, interpret, h.1]

theorem hasKind_interpret {k : Kind} {bytes : List UInt8} (h : bytes.length = k.size) :
    HasKind k (interpret k bytes) := by
  cases k with
  | integer size signed => exact inRange_wrap size signed _
  | pointer => exact trivial
  | object tag size => exact ⟨rfl, h⟩

/-! ### Loads and stores -/

abbrev Memory := Address → UInt8

/-- The address is one of the `n` bytes from `a` on. -/
def Within (a : Address) (n : Nat) (b : Address) : Prop :=
  (b - a).toNat < n

instance (a : Address) (n : Nat) (b : Address) : Decidable (Within a n b) :=
  inferInstanceAs (Decidable (_ < _))

/-- Two objects, each an address and a size, have no byte in common. -/
def NoOverlap (o p : Address × Nat) : Prop :=
  ∀ b, Within o.1 o.2 b → ¬Within p.1 p.2 b

/-- One object lies behind the other, and none reaches the end of the address space. -/
def Separate (o p : Address × Nat) : Prop :=
  (o.1.toNat + o.2 ≤ p.1.toNat ∨ p.1.toNat + p.2 ≤ o.1.toNat) ∧
    o.1.toNat + o.2 ≤ 2 ^ 64 ∧ p.1.toNat + p.2 ≤ 2 ^ 64

instance (o p : Address × Nat) : Decidable (Separate o p) :=
  inferInstanceAs (Decidable ((_ ∨ _) ∧ _ ∧ _))

/-- The `i`-th byte from `a` on. -/
def Address.byte (a : Address) (i : Nat) : Address :=
  a + BitVec.ofNat 64 i

namespace Memory

def bytes (m : Memory) (a : Address) (n : Nat) : List UInt8 :=
  (List.range n).map fun i => m (a.byte i)

def storeBytes (m : Memory) (a : Address) (bs : List UInt8) : Memory :=
  fun b => bs[(b - a).toNat]?.getD (m b)

/-- The value of a type that is read at an address. -/
def load (m : Memory) (a : Address) (k : Kind) : Value :=
  interpret k (m.bytes a k.size)

def store (m : Memory) (a : Address) (k : Kind) (v : Value) : Memory :=
  m.storeBytes a (represent k v)

/-- Stores one list of bytes after another. -/
def storeAll (m : Memory) (cells : List (Address × List UInt8)) : Memory :=
  cells.foldl (fun m cell => m.storeBytes cell.1 cell.2) m

end Memory

theorem within_byte {a : Address} {i n : Nat} (hi : i < n) (hn : n ≤ 2 ^ 64) :
    Within a n (a.byte i) := by
  have hself : a + BitVec.ofNat 64 i - a = BitVec.ofNat 64 i := by
    rw [BitVec.add_comm, BitVec.add_sub_cancel]
  rw [Within, Address.byte, hself, BitVec.toNat_ofNat, Nat.mod_eq_of_lt (by omega)]
  exact hi

theorem within_self {a : Address} {n : Nat} (hn : 0 < n) : Within a n a := by
  rw [Within, BitVec.sub_self]
  exact hn

/-- Where the object does not reach the end of the address space. -/
theorem within_iff {a b : Address} {n : Nat} (h : a.toNat + n ≤ 2 ^ 64) :
    Within a n b ↔ a.toNat ≤ b.toNat ∧ b.toNat < a.toNat + n := by
  have ha := a.isLt
  have hb := b.isLt
  rw [Within, BitVec.toNat_sub]
  omega

theorem Separate.noOverlap {o p : Address × Nat} (h : Separate o p) : NoOverlap o p := by
  obtain ⟨hside, ho, hp⟩ := h
  intro b hb hb'
  rw [within_iff ho] at hb
  rw [within_iff hp] at hb'
  omega

theorem byte_sub_toNat {a : Address} {i : Nat} (hi : i < 2 ^ 64) : (a.byte i - a).toNat = i := by
  have hself : a + BitVec.ofNat 64 i - a = BitVec.ofNat 64 i := by
    rw [BitVec.add_comm, BitVec.add_sub_cancel]
  rw [Address.byte, hself, BitVec.toNat_ofNat, Nat.mod_eq_of_lt hi]

namespace Memory

variable {m : Memory} {a : Address}

@[simp] theorem length_bytes (m : Memory) (a : Address) (n : Nat) : (m.bytes a n).length = n := by
  rw [bytes, List.length_map, List.length_range]

theorem getElem?_bytes (m : Memory) (a : Address) {i n : Nat} (hi : i < n) :
    (m.bytes a n)[i]? = some (m (a.byte i)) := by
  rw [bytes, List.getElem?_map, List.getElem?_range hi, Option.map_some]

theorem bytes_congr {m' : Memory} {n : Nat} (hn : n ≤ 2 ^ 64)
    (h : ∀ b, Within a n b → m b = m' b) : m.bytes a n = m'.bytes a n :=
  List.map_congr_left fun _ hi => h _ (within_byte (List.mem_range.1 hi) hn)

/-- A store leaves the other bytes. -/
theorem storeBytes_of_not_within {bs : List UInt8} {b : Address} (h : ¬Within a bs.length b) :
    m.storeBytes a bs b = m b := by
  rw [storeBytes, List.getElem?_eq_none (Nat.le_of_not_lt h), Option.getD_none]

theorem storeBytes_of_within {bs : List UInt8} {b : Address} (h : Within a bs.length b) :
    some (m.storeBytes a bs b) = bs[(b - a).toNat]? := by
  rw [storeBytes, List.getElem?_eq_getElem h, Option.getD_some]

/-- The bytes that were stored are read. -/
theorem bytes_storeBytes {bs : List UInt8} (hlen : bs.length ≤ 2 ^ 64) :
    (m.storeBytes a bs).bytes a bs.length = bs := by
  refine List.ext_getElem? fun i => ?_
  by_cases hi : i < bs.length
  · rw [getElem?_bytes _ _ hi, storeBytes_of_within (within_byte hi hlen),
      byte_sub_toNat (by omega)]
  · rw [List.getElem?_eq_none (by rw [length_bytes]; omega), List.getElem?_eq_none (by omega)]

theorem hasKind_load (m : Memory) (a : Address) (k : Kind) : HasKind k (m.load a k) :=
  hasKind_interpret (length_bytes m a k.size)

/-- **A value that was stored is read.** -/
theorem load_of_bytes_eq {k : Kind} {v : Value} (hv : HasKind k v)
    (h : m.bytes a k.size = represent k v) : m.load a k = v := by
  rw [load, h, interpret_represent hv]

theorem load_store {k : Kind} {v : Value} (hv : HasKind k v) (hsize : k.size ≤ 2 ^ 64) :
    (m.store a k v).load a k = v := by
  have hlen := length_represent hv
  refine load_of_bytes_eq hv ?_
  rw [← hlen]
  exact bytes_storeBytes (by omega)

/-- Several stores reach their own bytes. -/
theorem storeAll_of_not_within {cells : List (Address × List UInt8)} {b : Address}
    (h : ∀ cell ∈ cells, ¬Within cell.1 cell.2.length b) : m.storeAll cells b = m b := by
  induction cells generalizing m with
  | nil => rfl
  | cons cell cells ih =>
    rw [List.forall_mem_cons] at h
    exact (ih h.2).trans (storeBytes_of_not_within h.1)

/-- Of several stores to different objects each one stays. -/
theorem bytes_storeAll {cells : List (Address × List UInt8)}
    (hlen : ∀ cell ∈ cells, cell.2.length ≤ 2 ^ 64)
    (hapart : cells.Pairwise fun c d =>
      ∀ b, Within c.1 c.2.length b → ¬Within d.1 d.2.length b)
    {cell : Address × List UInt8} (h : cell ∈ cells) :
    (m.storeAll cells).bytes cell.1 cell.2.length = cell.2 := by
  induction cells generalizing m with
  | nil => cases h
  | cons first cells ih =>
    rw [List.forall_mem_cons] at hlen
    rw [List.pairwise_cons] at hapart
    rcases List.mem_cons.1 h with rfl | h
    · -- the stores behind it do not touch it
      have hkept : (m.storeAll (cell :: cells)).bytes cell.1 cell.2.length
          = (m.storeBytes cell.1 cell.2).bytes cell.1 cell.2.length := by
        refine bytes_congr hlen.1 fun b hb => ?_
        exact storeAll_of_not_within fun d hd => hapart.1 d hd b hb
      rw [hkept, bytes_storeBytes hlen.1]
    · exact ih hlen.2 hapart.2 h

end Memory

end CValue
