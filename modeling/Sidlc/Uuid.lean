import Sidlc.Ast
import Sidlc.Sha256

/-!
# UUIDs (the part of `uuid.h` the compiler uses)

The textual form (`is_valid_uuid`, `from_string`, `to_string`) and the name-based generator with
the SHA-1 it rests on.
-/

namespace Sidlc

/-! ### SHA-1 (`uuids::detail::sha1`) -/

/-- `block` holds the first `m_blockByteIndex` bytes of `m_block`. -/
structure Sha1 where
  digest : Vector UInt32 5 := #v[0x67452301, 0xEFCDAB89, 0x98BADCFE, 0x10325476, 0xC3D2E1F0]
  block : Bytes := []
  byteCount : UInt64 := 0

namespace Sha1

def leftRotate (value count : UInt32) : UInt32 :=
  (value <<< count) ^^^ (value >>> (32 - count))

/-- The words `w` of a block. -/
def schedule (block : Bytes) : Array UInt32 :=
  let byte (i : Nat) : UInt32 := (block.getD i 0).toUInt32
  let w : Array UInt32 := ((List.range 16).map fun i =>
    (byte (i * 4) <<< 24) ||| (byte (i * 4 + 1) <<< 16) ||| (byte (i * 4 + 2) <<< 8)
      ||| byte (i * 4 + 3)).toArray
  (List.range' 16 64).foldl (fun w i =>
    w.push (leftRotate (w.getD (i - 3) 0 ^^^ w.getD (i - 8) 0 ^^^ w.getD (i - 14) 0
      ^^^ w.getD (i - 16) 0) 1)) w

/-- One of the eighty rounds on `a, ..., e`. -/
def round (v : Vector UInt32 5) (i : Nat) (wi : UInt32) : Vector UInt32 5 :=
  let (a, b, c, d, e) := (v[0], v[1], v[2], v[3], v[4])
  let (f, k) : UInt32 × UInt32 :=
    if i < 20 then ((b &&& c) ||| (~~~b &&& d), 0x5A827999)
    else if i < 40 then (b ^^^ c ^^^ d, 0x6ED9EBA1)
    else if i < 60 then ((b &&& c) ||| (b &&& d) ||| (c &&& d), 0x8F1BBCDC)
    else (b ^^^ c ^^^ d, 0xCA62C1D6)
  #v[leftRotate a 5 + f + e + k + wi, a, leftRotate b 30, c, d]

def processBlock (digest : Vector UInt32 5) (block : Bytes) : Vector UInt32 5 :=
  let w := schedule block
  let v := (List.range 80).foldl (fun v i => round v i (w.getD i 0)) digest
  Vector.zipWith (· + ·) digest v

def processByte (s : Sha1) (octet : UInt8) : Sha1 :=
  let block := s.block ++ [octet]
  if block.length = 64 then
    { digest := processBlock s.digest block, block := [], byteCount := s.byteCount + 1 }
  else { s with block := block, byteCount := s.byteCount + 1 }

def processBytes (s : Sha1) (data : Bytes) : Sha1 :=
  data.foldl processByte s

/-- `while (m_blockByteIndex < size) process_byte(0);` -/
def padTo (size : Nat) (s : Sha1) : Sha1 :=
  s.processBytes (List.replicate (size - s.block.length) 0)

/-- `get_digest_bytes`; the length field has thirty-two bits. -/
def digestBytes (s : Sha1) : Vector UInt8 20 :=
  let bitCount := s.byteCount * 8
  let s := s.processByte 0x80
  let s := if s.block.length > 56 then padTo 56 (padTo 64 s) else padTo 56 s
  let s := s.processBytes [0, 0, 0, 0, (bitCount >>> 24).toUInt8, (bitCount >>> 16).toUInt8,
    (bitCount >>> 8).toUInt8, bitCount.toUInt8]
  (s.digest.map Sha256.wordBytes).flatten

end Sha1

/-! ### The name-based generator (`uuids::uuid_name_generator`) -/

/-- `uuid_name_generator(nsuuid)(name)` -/
def uuidNameGenerator (nsuuid : UuidBytes) (name : Bytes) : UuidBytes :=
  let hasher := (Sha1.processBytes {} nsuuid.toList).processBytes name
  let digest := hasher.digestBytes
  let digest := digest.set 8 ((digest[8] &&& 0xBF) ||| 0x80)
  let digest := digest.set 6 ((digest[6] &&& 0x5F) ||| 0x50)
  digest.take 16

/-! ### The textual form -/

namespace Uuid

def isHex (ch : UInt8) : Bool :=
  (48 ≤ ch && ch ≤ 57) || (97 ≤ ch && ch ≤ 102) || (65 ≤ ch && ch ≤ 70)

def hex2char (ch : UInt8) : UInt8 :=
  if 48 ≤ ch && ch ≤ 57 then ch - 48
  else if 97 ≤ ch && ch ≤ 102 then 10 + ch - 97
  else if 65 ≤ ch && ch ≤ 70 then 10 + ch - 65
  else 0

/-- The locals of the scanning loop of `is_valid_uuid` and `from_string`. -/
structure Scan where
  firstDigit : Bool := true
  index : Nat := 0
  data : UuidBytes := Vector.replicate 16 0

/-- One round of the loop: hyphens are skipped wherever they stand. -/
def scanStep (s : Scan) (ch : UInt8) : Option Scan :=
  if ch = 45 then some s
  else if s.index ≥ 16 || !isHex ch then none
  else if s.firstDigit then
    some { s with data := s.data.setIfInBounds s.index (hex2char ch <<< 4), firstDigit := false }
  else
    some { s with
      data := s.data.setIfInBounds s.index (s.data.toList.getD s.index 0 ||| hex2char ch)
      index := s.index + 1
      firstDigit := true }

/-- The scan both functions make, with the braces taken off; `none` is their early `return`. -/
def scan (str : Bytes) : Option Scan :=
  match str with
  | [] => none
  | c :: _ =>
    if c = 123 then
      if str.getLast? ≠ some 125 then none else (str.drop 1).dropLast.foldlM scanStep {}
    else str.foldlM scanStep {}

/-- `is_valid_uuid` -/
def isValidUuid (str : Bytes) : Bool :=
  match scan str with
  | none => false
  | some s => !(s.index < 16)

/-- `from_string` -/
def fromString (str : Bytes) : Option UuidBytes :=
  match scan str with
  | none => none
  | some s => if s.index < 16 then none else some s.data

/-- `guid_encoder` -/
def guidEncoder (digit : UInt8) : UInt8 :=
  (ascii "0123456789abcdef").getD digit.toNat 0

/-- The two digits of a byte. -/
def hexByte (b : UInt8) : Bytes :=
  [guidEncoder (b >>> 4 &&& 0x0f), guidEncoder (b &&& 0x0f)]

/-- `to_string`: the places `8`, `13`, `18` and `23` keep the hyphens of `empty_guid`. -/
def toString (id : UuidBytes) : Bytes :=
  (List.range 16).flatMap fun index =>
    (if index = 4 ∨ index = 6 ∨ index = 8 ∨ index = 10 then [45] else [])
      ++ hexByte (id.toList.getD index 0)

end Uuid

end Sidlc
