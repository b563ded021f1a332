import Sidlc.Library.SecureHash

/-!
# SHA-1 and the identifiers it names

The hash function of the Secure Hash Standard that shares its padding with SHA-256, as the standard
states it, and the name-based identifiers (UUIDs of version 5) that are made from its digests.
-/

namespace SecureHash

/-- Circular left shift. -/
def rotl (n : Nat) (x : Word) : Word :=
  (x <<< UInt32.ofNat n) ||| (x >>> UInt32.ofNat (32 - n))

def parity (x y z : Word) : Word :=
  x ^^^ y ^^^ z

namespace Sha1

/-- The working variables, or the words of a hash value. -/
structure Words where
  (a b c d e : Word)
  deriving DecidableEq

def initial : Words where
  a := 0x67452301
  b := 0xEFCDAB89
  c := 0x98BADCFE
  d := 0x10325476
  e := 0xC3D2E1F0

/-- The functions `f` of the eighty rounds. -/
def f (t : Nat) : Word → Word → Word → Word :=
  if t < 20 then ch else if t < 40 then parity else if t < 60 then maj else parity

/-- The thirty bits behind the point of a square root, and two bits before it. -/
def quarterRoot (p : Nat) : Word :=
  UInt32.ofNat (Nat.sqrt (p * 2 ^ 60))

/-- The constants of the rounds are a quarter of the square roots of `2`, `3`, `5` and `10`. -/
def roundConstant (t : Nat) : Word :=
  quarterRoot (if t < 20 then 2 else if t < 40 then 3 else if t < 60 then 5 else 10)

/-- `W`, for the words `m` of a block. -/
def schedule (m : Nat → Word) (t : Nat) : Word :=
  if t < 16 then m t
  else rotl 1 (schedule m (t - 3) ^^^ schedule m (t - 8) ^^^ schedule m (t - 14)
    ^^^ schedule m (t - 16))
termination_by t
decreasing_by
  all_goals omega

def Words.round (v : Words) (t : Nat) (wt : Word) : Words :=
  ⟨rotl 5 v.a + f t v.b v.c v.d + v.e + roundConstant t + wt, v.a, rotl 30 v.b, v.c, v.d⟩

def Words.add (v w : Words) : Words :=
  ⟨v.a + w.a, v.b + w.b, v.c + w.c, v.d + w.d, v.e + w.e⟩

def compress (hash : Words) (block : Bits) : Words :=
  let w := schedule (blockWord block)
  hash.add ((List.range 80).foldl (fun v t => v.round t (w t)) hash)

def Words.bits (v : Words) : Bits :=
  [v.a, v.b, v.c, v.d, v.e].flatMap fun x => bitsOf 32 x.toNat

end Sha1

/-- The digest of a message of fewer than `2 ^ 64` bits. -/
def sha1 (message : Bits) : Bits :=
  let padded := pad message
  ((List.range (padded.length / 512)).foldl (fun hash i => Sha1.compress hash (block padded i))
    Sha1.initial).bits

/-- The identifier of a name in a name space: the first 128 bits of the digest, with the version in
the bits from 48 on and the variant in the bits from 64 on. -/
def nameUuid (nameSpace name : Bits) : Bits :=
  let digest := sha1 (nameSpace ++ name)
  digest.take 48 ++ bitsOf 4 5 ++ (digest.drop 52).take 12 ++ bitsOf 2 2 ++ (digest.drop 66).take 62

/-! ### Operations on words, bit by bit -/

/-- The two choices of `ch` have no bit in common. -/
theorem ch_eq_or (x y z : Word) : ch x y z = (x &&& y) ||| (~~~x &&& z) := by
  refine UInt32.toBitVec_inj.1 (BitVec.eq_of_getLsbD_eq fun i hi => ?_)
  simp only [ch, UInt32.toBitVec_xor, UInt32.toBitVec_or, UInt32.toBitVec_and, UInt32.toBitVec_not,
    BitVec.getLsbD_xor, BitVec.getLsbD_or, BitVec.getLsbD_and, BitVec.getLsbD_not, hi,
    decide_true, Bool.true_and]
  cases x.toBitVec.getLsbD i <;> simp

/-- A bit that two of three words have is one that an odd number of pairs has. -/
theorem maj_eq_or (x y z : Word) : maj x y z = (x &&& y) ||| (x &&& z) ||| (y &&& z) := by
  refine UInt32.toBitVec_inj.1 (BitVec.eq_of_getLsbD_eq fun i _ => ?_)
  simp only [maj, UInt32.toBitVec_xor, UInt32.toBitVec_or, UInt32.toBitVec_and,
    BitVec.getLsbD_xor, BitVec.getLsbD_or, BitVec.getLsbD_and]
  cases x.toBitVec.getLsbD i <;> cases y.toBitVec.getLsbD i <;> simp

/-- The bits that a rotation brings round go where none are left. -/
theorem rotl_eq_xor {n : Nat} (hn : 0 < n) (hlt : n < 32) (x : Word) :
    rotl n x = (x <<< UInt32.ofNat n) ^^^ (x >>> UInt32.ofNat (32 - n)) := by
  have hmod (k : Nat) (hk : k < 32) : ((UInt32.ofNat k).toBitVec % 32).toNat = k := by
    rw [BitVec.toNat_umod, UInt32.toNat_toBitVec, UInt32.toNat_ofNat']
    show k % 2 ^ 32 % 32 = _
    omega
  refine UInt32.toBitVec_inj.1 (BitVec.eq_of_getLsbD_eq fun i hi => ?_)
  have hdisjoint : i < n ∨ 32 ≤ 32 - n + i := by omega
  simp only [rotl, UInt32.toBitVec_xor, UInt32.toBitVec_or, UInt32.toBitVec_shiftLeft,
    UInt32.toBitVec_shiftRight, BitVec.getLsbD_xor, BitVec.getLsbD_or, BitVec.shiftLeft_eq',
    BitVec.ushiftRight_eq', hmod n hlt, hmod (32 - n) (by omega), BitVec.getLsbD_shiftLeft,
    BitVec.getLsbD_ushiftRight]
  rcases hdisjoint with hlow | hhigh
  · simp [hlow]
  · simp [BitVec.getLsbD_of_ge _ _ hhigh]

/-! ### Constants -/

theorem Sha1.roundConstant_eq (t : Nat) : Sha1.roundConstant t =
    if t < 20 then 0x5A827999 else if t < 40 then 0x6ED9EBA1 else if t < 60 then 0x8F1BBCDC
    else 0xCA62C1D6 := by
  have h (p r : Nat) (h : r * r ≤ p * 2 ^ 60 ∧ p * 2 ^ 60 < (r + 1) * (r + 1)) :
      Sha1.quarterRoot p = UInt32.ofNat r :=
    congrArg UInt32.ofNat (Nat.eq_sqrt.2 h).symm
  unfold Sha1.roundConstant
  split_ifs
  · exact h 2 0x5A827999 (by decide)
  · exact h 3 0x6ED9EBA1 (by decide)
  · exact h 5 0x8F1BBCDC (by decide)
  · exact h 10 0xCA62C1D6 (by decide)

end SecureHash
