import Mathlib.Data.Nat.Bitwise
import Mathlib.Data.Nat.NthRoot.Defs
import Mathlib.Tactic.Ring

/-!
# SHA-256

The hash function of the Secure Hash Standard, on bit strings and as the standard states it: the
padding, the parsing into blocks, the message schedule as a recurrence, and the constants as the
roots they come from. The second half says what padding and parsing are on the bits of whole bytes.
-/

namespace SecureHash

abbrev Bits := List Bool

/-- Words have thirty-two bits, and are added modulo `2 ^ 32`. -/
abbrev Word := UInt32

/-! ### Functions on words -/

def rotr (n : Nat) (x : Word) : Word :=
  (x >>> UInt32.ofNat n) ||| (x <<< UInt32.ofNat (32 - n))

def shr (n : Nat) (x : Word) : Word :=
  x >>> UInt32.ofNat n

def ch (x y z : Word) : Word :=
  (x &&& y) ^^^ (~~~x &&& z)

def maj (x y z : Word) : Word :=
  (x &&& y) ^^^ (x &&& z) ^^^ (y &&& z)

def bigSigma0 (x : Word) : Word :=
  rotr 2 x ^^^ rotr 13 x ^^^ rotr 22 x

def bigSigma1 (x : Word) : Word :=
  rotr 6 x ^^^ rotr 11 x ^^^ rotr 25 x

def smallSigma0 (x : Word) : Word :=
  rotr 7 x ^^^ rotr 18 x ^^^ shr 3 x

def smallSigma1 (x : Word) : Word :=
  rotr 17 x ^^^ rotr 19 x ^^^ shr 10 x

/-! ### Constants -/

/-- The first sixty-four primes. -/
def primes : List Nat :=
  [2, 3, 5, 7, 11, 13, 17, 19, 23, 29, 31, 37, 41, 43, 47, 53, 59, 61, 67, 71, 73, 79, 83, 89, 97,
    101, 103, 107, 109, 113, 127, 131, 137, 139, 149, 151, 157, 163, 167, 173, 179, 181, 191, 193,
    197, 199, 211, 223, 227, 229, 233, 239, 241, 251, 257, 263, 269, 271, 277, 281, 283, 293, 307,
    311]

/-- The first thirty-two bits of the fractional part of the `n`-th root of `p`. -/
def rootWord (n p : Nat) : Word :=
  UInt32.ofNat (Nat.nthRoot n (p * 2 ^ (32 * n)))

/-- The constants of the rounds come from cube roots. -/
def roundConstant (t : Nat) : Word :=
  rootWord 3 (primes.getD t 0)

/-- The working variables, or the words of a hash value. -/
structure Words where
  (a b c d e f g h : Word)
  deriving DecidableEq

/-- The initial hash value comes from square roots. -/
def initial : Words where
  a := rootWord 2 2
  b := rootWord 2 3
  c := rootWord 2 5
  d := rootWord 2 7
  e := rootWord 2 11
  f := rootWord 2 13
  g := rootWord 2 17
  h := rootWord 2 19

/-! ### Padding and parsing -/

/-- `n` as a string of `width` bits, most significant bit first. -/
def bitsOf (width n : Nat) : Bits :=
  (List.range width).map fun i => n.testBit (width - 1 - i)

/-- The number that a string of bits stands for. -/
def number (bits : Bits) : Nat :=
  bits.foldl (fun n bit => 2 * n + bit.toNat) 0

/-- The least number of zeros that, after the message and a one, leave 64 bits of the last block. -/
def zeros (length : Nat) : Nat :=
  (448 + 512 - (length + 1) % 512) % 512

def pad (message : Bits) : Bits :=
  message ++ [true] ++ List.replicate (zeros message.length) false ++ bitsOf 64 message.length

def block (padded : Bits) (i : Nat) : Bits :=
  (padded.drop (512 * i)).take 512

/-- `M` of one block. -/
def blockWord (block : Bits) (t : Nat) : Word :=
  UInt32.ofNat (number ((block.drop (32 * t)).take 32))

/-! ### Hash computation -/

/-- `W`, for the words `m` of a block. -/
def schedule (m : Nat → Word) (t : Nat) : Word :=
  if t < 16 then m t
  else smallSigma1 (schedule m (t - 2)) + schedule m (t - 7) + smallSigma0 (schedule m (t - 15))
    + schedule m (t - 16)
termination_by t
decreasing_by
  all_goals omega

def Words.round (v : Words) (kt wt : Word) : Words :=
  let t1 := v.h + bigSigma1 v.e + ch v.e v.f v.g + kt + wt
  let t2 := bigSigma0 v.a + maj v.a v.b v.c
  ⟨t1 + t2, v.a, v.b, v.c, v.d + t1, v.e, v.f, v.g⟩

def Words.add (v w : Words) : Words :=
  ⟨v.a + w.a, v.b + w.b, v.c + w.c, v.d + w.d, v.e + w.e, v.f + w.f, v.g + w.g, v.h + w.h⟩

def compress (hash : Words) (block : Bits) : Words :=
  let w := schedule (blockWord block)
  hash.add ((List.range 64).foldl (fun v t => v.round (roundConstant t) (w t)) hash)

def Words.bits (v : Words) : Bits :=
  [v.a, v.b, v.c, v.d, v.e, v.f, v.g, v.h].flatMap fun x => bitsOf 32 x.toNat

/-- The digest of a message of fewer than `2 ^ 64` bits. -/
def sha256 (message : Bits) : Bits :=
  let padded := pad message
  ((List.range (padded.length / 512)).foldl (fun hash i => compress hash (block padded i))
    initial).bits

/-! ### Numbers and bits -/

@[simp] theorem length_bitsOf (width n : Nat) : (bitsOf width n).length = width := by
  simp [bitsOf]

/-- The high bits come first. -/
theorem bitsOf_add (v w n : Nat) : bitsOf (v + w) n = bitsOf v (n / 2 ^ w) ++ bitsOf w n := by
  unfold bitsOf
  rw [List.range_add, List.map_append, List.map_map]
  congr 1
  · refine List.map_congr_left fun i hi => ?_
    have hlt : i < v := List.mem_range.1 hi
    rw [Nat.testBit_div_two_pow]
    congr 1
    omega
  · refine List.map_congr_left fun i hi => ?_
    have hlt : i < w := List.mem_range.1 hi
    show n.testBit (v + w - 1 - (v + i)) = _
    congr 1
    omega

theorem bitsOf_mod (w n : Nat) : bitsOf w (n % 2 ^ w) = bitsOf w n := by
  refine List.map_congr_left fun i hi => ?_
  have hlt : i < w := List.mem_range.1 hi
  rw [Nat.testBit_mod_two_pow]
  simp only [Bool.and_eq_right_iff_imp, decide_eq_true_eq]
  omega

theorem bitsOf_zero_right (w : Nat) : bitsOf w 0 = List.replicate w false := by
  unfold bitsOf
  simp only [Nat.zero_testBit, List.map_const', List.length_range]

theorem foldl_number (n : Nat) (bits : Bits) :
    bits.foldl (fun n bit => 2 * n + bit.toNat) n = n * 2 ^ bits.length + number bits := by
  unfold number
  induction bits generalizing n with
  | nil => simp
  | cons bit bits ih =>
    rw [List.foldl_cons, List.foldl_cons, ih, ih (2 * 0 + bit.toNat), List.length_cons, pow_succ]
    ring

theorem number_append (xs ys : Bits) :
    number (xs ++ ys) = number xs * 2 ^ ys.length + number ys := by
  rw [number, List.foldl_append, foldl_number]
  rfl

theorem number_bitsOf {w n : Nat} (h : n < 2 ^ w) : number (bitsOf w n) = n := by
  induction w generalizing n with
  | zero =>
    rw [pow_zero] at h
    have hn : n = 0 := by omega
    rw [hn]
    rfl
  | succ w ih =>
    have hlow : number (bitsOf w n) = n % 2 ^ w := by
      rw [← bitsOf_mod, ih (Nat.mod_lt _ (Nat.two_pow_pos w))]
    have htop : number (bitsOf 1 (n / 2 ^ w)) = n / 2 ^ w := by
      have hlt : n / 2 ^ w < 2 := Nat.div_lt_of_lt_mul (by rwa [← pow_succ])
      rcases Nat.le_one_iff_eq_zero_or_eq_one.1 (Nat.lt_succ_iff.1 hlt) with h | h
      · rw [h]; rfl
      · rw [h]; rfl
    rw [Nat.add_comm w 1, bitsOf_add, number_append, htop, hlow, length_bitsOf,
      Nat.mul_comm, Nat.div_add_mod]

/-! ### Messages of whole bytes -/

def bytesBits (bytes : List UInt8) : Bits :=
  bytes.flatMap fun byte => bitsOf 8 byte.toNat

@[simp] theorem bytesBits_nil : bytesBits [] = [] :=
  rfl

@[simp] theorem bytesBits_cons (byte : UInt8) (bytes : List UInt8) :
    bytesBits (byte :: bytes) = bitsOf 8 byte.toNat ++ bytesBits bytes :=
  List.flatMap_cons

@[simp] theorem bytesBits_append (xs ys : List UInt8) :
    bytesBits (xs ++ ys) = bytesBits xs ++ bytesBits ys :=
  List.flatMap_append

@[simp] theorem length_bytesBits (bytes : List UInt8) :
    (bytesBits bytes).length = 8 * bytes.length := by
  induction bytes with
  | nil => rfl
  | cons byte bytes ih =>
    rw [bytesBits_cons, List.length_append, ih, length_bitsOf, List.length_cons]
    omega

theorem drop_bytesBits (bytes : List UInt8) (n : Nat) :
    (bytesBits bytes).drop (8 * n) = bytesBits (bytes.drop n) := by
  by_cases hn : n ≤ bytes.length
  · have hsplit : bytesBits bytes = bytesBits (bytes.take n) ++ bytesBits (bytes.drop n) := by
      rw [← bytesBits_append, List.take_append_drop]
    rw [hsplit, List.drop_left']
    rw [length_bytesBits, List.length_take, Nat.min_eq_left hn]
  · rw [List.drop_eq_nil_of_le (by rw [length_bytesBits]; omega),
      List.drop_eq_nil_of_le (by omega), bytesBits_nil]

theorem take_bytesBits (bytes : List UInt8) (n : Nat) :
    (bytesBits bytes).take (8 * n) = bytesBits (bytes.take n) := by
  by_cases hn : n ≤ bytes.length
  · have hsplit : bytesBits bytes = bytesBits (bytes.take n) ++ bytesBits (bytes.drop n) := by
      rw [← bytesBits_append, List.take_append_drop]
    rw [hsplit, List.take_left']
    rw [length_bytesBits, List.length_take, Nat.min_eq_left hn]
  · rw [List.take_of_length_le (by rw [length_bytesBits]; omega),
      List.take_of_length_le (by omega)]

theorem bytesBits_replicate_zero (n : Nat) :
    bytesBits (List.replicate n 0) = List.replicate (8 * n) false := by
  induction n with
  | zero => rfl
  | succ n ih =>
    rw [List.replicate_succ, bytesBits_cons, ih, UInt8.toNat_zero, bitsOf_zero_right,
      List.replicate_append_replicate, Nat.mul_succ, Nat.add_comm 8]

/-- `n` as eight bytes, most significant byte first. -/
def lengthBytes (n : Nat) : List UInt8 :=
  (List.range 8).reverse.map fun i => UInt8.ofNat (n / 2 ^ (i * 8))

theorem bitsOf_byte (n : Nat) : bitsOf 8 (UInt8.ofNat n).toNat = bitsOf 8 n := by
  rw [UInt8.toNat_ofNat']
  exact bitsOf_mod 8 n

theorem bytesBits_lengthBytes (n : Nat) : bytesBits (lengthBytes n) = bitsOf 64 n := by
  have hbytes (k : Nat) : bytesBits ((List.range k).reverse.map fun i =>
      UInt8.ofNat (n / 2 ^ (i * 8))) = bitsOf (8 * k) n := by
    induction k with
    | zero => rfl
    | succ k ih =>
      have hwidth : 8 * (k + 1) = 8 + 8 * k := by omega
      rw [List.range_succ, List.reverse_append, List.reverse_singleton, List.map_append,
        bytesBits_append, ih, List.map_singleton, bytesBits_cons, bytesBits_nil, List.append_nil,
        bitsOf_byte, hwidth, bitsOf_add, Nat.mul_comm k 8]
  exact hbytes 8

/-- The message with its padding, in bytes. -/
def padBytes (message : List UInt8) : List UInt8 :=
  message ++ [0x80] ++ List.replicate ((55 + 64 - message.length % 64) % 64) 0
    ++ lengthBytes (8 * message.length)

theorem pad_bytesBits (message : List UInt8) :
    pad (bytesBits message) = bytesBits (padBytes message) := by
  have hone : bytesBits [0x80] = [true] ++ List.replicate 7 false := by decide
  have hzeros : zeros (8 * message.length)
      = 7 + 8 * ((55 + 64 - message.length % 64) % 64) := by
    unfold zeros
    omega
  rw [padBytes, bytesBits_append, bytesBits_append, bytesBits_append, hone,
    bytesBits_replicate_zero, bytesBits_lengthBytes, pad, length_bytesBits, hzeros,
    ← List.replicate_append_replicate]
  simp only [List.append_assoc]

theorem length_padBytes (message : List UInt8) : 64 ∣ (padBytes message).length := by
  simp only [padBytes, lengthBytes, List.length_append, List.length_singleton,
    List.length_replicate, List.length_map, List.length_reverse, List.length_range]
  omega

/-- Four bytes of a block are one of its words. -/
theorem blockWord_bytesBits {bytes : List UInt8} {t : Nat} (h : 4 * t + 4 ≤ bytes.length) :
    (blockWord (bytesBits bytes) t).toNat =
      ((bytes[4 * t].toNat * 256 + bytes[4 * t + 1].toNat) * 256 + bytes[4 * t + 2].toNat) * 256
        + bytes[4 * t + 3].toNat := by
  have hfour : (bytes.drop (4 * t)).take 4
      = [bytes[4 * t], bytes[4 * t + 1], bytes[4 * t + 2], bytes[4 * t + 3]] := by
    rw [List.drop_eq_getElem_cons (by omega), List.drop_eq_getElem_cons (by omega),
      List.drop_eq_getElem_cons (by omega), List.drop_eq_getElem_cons (by omega)]
    rfl
  have hbits : ((bytesBits bytes).drop (32 * t)).take 32
      = bytesBits [bytes[4 * t], bytes[4 * t + 1], bytes[4 * t + 2], bytes[4 * t + 3]] := by
    have h32 : 32 * t = 8 * (4 * t) := by omega
    rw [h32, drop_bytesBits]
    exact (take_bytesBits _ 4).trans (congrArg bytesBits hfour)
  have hbyte (b : UInt8) : number (bitsOf 8 b.toNat) = b.toNat := number_bitsOf b.toNat_lt
  have h0 := bytes[4 * t].toNat_lt
  have h1 := bytes[4 * t + 1].toNat_lt
  have h2 := bytes[4 * t + 2].toNat_lt
  have h3 := bytes[4 * t + 3].toNat_lt
  rw [blockWord, hbits]
  simp only [bytesBits_cons, bytesBits_nil, number_append, hbyte, List.length_append,
    length_bitsOf, List.length_nil, UInt32.toNat_ofNat']
  have hnil : number [] = 0 := rfl
  rw [hnil]
  omega

end SecureHash
