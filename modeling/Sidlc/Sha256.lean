import Sidlc.Ast

/-!
# SHA-256 (`class Sha256` of `sif.cc`)

The hasher takes its input in chunks. `update_append` shows that the cuts between them do not
matter, so that `BinaryWriter`, which hands over single bytes and whole arrays, feeds the same
message as one call would.
-/

namespace Sidlc

/-- `buffer` holds the `buffer_size` bytes not yet transformed; what the C array has beyond them is
never read. -/
structure Sha256 where
  state : Vector UInt32 8 := #v[0x6a09e667, 0xbb67ae85, 0x3c6ef372, 0xa54ff53a, 0x510e527f,
    0x9b05688c, 0x1f83d9ab, 0x5be0cd19]
  buffer : Bytes := []
  buffer_lt : buffer.length < 64 := by decide
  bitCount : UInt64 := 0

namespace Sha256

/-- A hasher that has seen nothing. -/
def init : Sha256 :=
  {}

def rotr (value shift : UInt32) : UInt32 :=
  (value >>> shift) ||| (value <<< (32 - shift))

/-- The round constants `k`. -/
def k : Array UInt32 := #[
  0x428a2f98, 0x71374491, 0xb5c0fbcf, 0xe9b5dba5, 0x3956c25b, 0x59f111f1, 0x923f82a4, 0xab1c5ed5,
  0xd807aa98, 0x12835b01, 0x243185be, 0x550c7dc3, 0x72be5d74, 0x80deb1fe, 0x9bdc06a7, 0xc19bf174,
  0xe49b69c1, 0xefbe4786, 0x0fc19dc6, 0x240ca1cc, 0x2de92c6f, 0x4a7484aa, 0x5cb0a9dc, 0x76f988da,
  0x983e5152, 0xa831c66d, 0xb00327c8, 0xbf597fc7, 0xc6e00bf3, 0xd5a79147, 0x06ca6351, 0x14292967,
  0x27b70a85, 0x2e1b2138, 0x4d2c6dfc, 0x53380d13, 0x650a7354, 0x766a0abb, 0x81c2c92e, 0x92722c85,
  0xa2bfe8a1, 0xa81a664b, 0xc24b8b70, 0xc76c51a3, 0xd192e819, 0xd6990624, 0xf40e3585, 0x106aa070,
  0x19a4c116, 0x1e376c08, 0x2748774c, 0x34b0bcb5, 0x391c0cb3, 0x4ed8aa4a, 0x5b9cca4f, 0x682e6ff3,
  0x748f82ee, 0x78a5636f, 0x84c87814, 0x8cc70208, 0x90befffa, 0xa4506ceb, 0xbef9a3f7, 0xc67178f2]

/-- The message schedule `w`: sixteen big-endian words of the block, extended to sixty-four. -/
def schedule (block : Bytes) : Array UInt32 :=
  let byte (i : Nat) : UInt32 := (block.getD i 0).toUInt32
  let w : Array UInt32 := ((List.range 16).map fun i =>
    (byte (i * 4) <<< 24) ||| (byte (i * 4 + 1) <<< 16) ||| (byte (i * 4 + 2) <<< 8)
      ||| byte (i * 4 + 3)).toArray
  (List.range' 16 48).foldl (fun w i =>
    let s0 := rotr (w.getD (i - 15) 0) 7 ^^^ rotr (w.getD (i - 15) 0) 18
      ^^^ (w.getD (i - 15) 0 >>> 3)
    let s1 := rotr (w.getD (i - 2) 0) 17 ^^^ rotr (w.getD (i - 2) 0) 19
      ^^^ (w.getD (i - 2) 0 >>> 10)
    w.push (w.getD (i - 16) 0 + s0 + w.getD (i - 7) 0 + s1)) w

/-- One of the sixty-four rounds on `a, ..., h`. -/
def round (v : Vector UInt32 8) (ki wi : UInt32) : Vector UInt32 8 :=
  let (a, b, c, d) := (v[0], v[1], v[2], v[3])
  let (e, f, g, h) := (v[4], v[5], v[6], v[7])
  let s1 := rotr e 6 ^^^ rotr e 11 ^^^ rotr e 25
  let ch := (e &&& f) ^^^ (~~~e &&& g)
  let temp1 := h + s1 + ch + ki + wi
  let s0 := rotr a 2 ^^^ rotr a 13 ^^^ rotr a 22
  let maj := (a &&& b) ^^^ (a &&& c) ^^^ (b &&& c)
  let temp2 := s0 + maj
  #v[temp1 + temp2, a, b, c, d + temp1, e, f, g]

/-- `transform` -/
def transform (state : Vector UInt32 8) (block : Bytes) : Vector UInt32 8 :=
  let w := schedule block
  let v := (List.range 64).foldl (fun v i => round v (k.getD i 0) (w.getD i 0)) state
  Vector.zipWith (· + ·) state v

/-- The `while (size > 0)` loop of `update`. -/
def updateLoop (s : Sha256) (data : Bytes) : Sha256 :=
  if data = [] then s
  else
    let copySize := min data.length (64 - s.buffer.length)
    let buffer := s.buffer ++ data.take copySize
    if hfull : buffer.length = 64 then
      updateLoop { state := transform s.state buffer, bitCount := s.bitCount } (data.drop copySize)
    else
      updateLoop
        { s with
          buffer := buffer
          buffer_lt := by
            have := s.buffer_lt
            simp only [buffer, copySize, List.length_append, List.length_take] at hfull ⊢
            omega }
        (data.drop copySize)
termination_by data.length
decreasing_by
  all_goals
    have := s.buffer_lt
    have : 0 < data.length := List.length_pos_of_ne_nil ‹_›
    rw [List.length_drop]
    omega

/-- `update` -/
def update (s : Sha256) (data : Bytes) : Sha256 :=
  updateLoop { s with bitCount := s.bitCount + UInt64.ofNat data.length * 8 } data

/-- `while (buffer_size < size) buffer[buffer_size++] = 0;` -/
def padTo (size : Nat) (buffer : Bytes) : Bytes :=
  buffer ++ List.replicate (size - buffer.length) 0

/-- A word of the state as the digest stores it, most significant byte first. -/
def wordBytes (v : UInt32) : Vector UInt8 4 :=
  #v[(v >>> 24).toUInt8, (v >>> 16).toUInt8, (v >>> 8).toUInt8, v.toUInt8]

/-- `finish` -/
def finish (s : Sha256) : Hash :=
  let buffer := s.buffer ++ [0x80]
  let (state, buffer) :=
    if buffer.length > 56 then (transform s.state (padTo 64 buffer), []) else (s.state, buffer)
  let buffer := padTo 56 buffer
  let buffer := buffer ++ ((List.range 8).reverse.map fun i =>
    (s.bitCount >>> UInt64.ofNat (i * 8)).toUInt8)
  let state : Vector UInt32 8 := transform state buffer
  (state.map wordBytes).flatten

/-- The digest of a message handed over in one chunk. -/
def digest (message : Bytes) : Hash :=
  (update init message).finish

/-! ### Chunks do not matter -/

/-- Takes one byte into the buffer, transforming the block it completes. -/
def pushByte (s : Sha256) (b : UInt8) : Sha256 :=
  if hfull : s.buffer.length + 1 = 64 then
    { state := transform s.state (s.buffer ++ [b]), bitCount := s.bitCount }
  else
    { s with
      buffer := s.buffer ++ [b]
      buffer_lt := by
        have := s.buffer_lt
        rw [List.length_append, List.length_singleton]
        omega }

/-- Bytes that do not fill the buffer are only collected. -/
theorem foldl_pushByte_of_lt (s : Sha256) (chunk : Bytes)
    (h : (s.buffer ++ chunk).length < 64) :
    chunk.foldl pushByte s = { s with buffer := s.buffer ++ chunk, buffer_lt := h } := by
  induction chunk generalizing s with
  | nil => simp
  | cons b chunk ih =>
    rw [List.length_append, List.length_cons] at h
    have hpush : pushByte s b =
        { s with
          buffer := s.buffer ++ [b]
          buffer_lt := by rw [List.length_append, List.length_singleton]; omega } := by
      rw [pushByte, dif_neg (by omega)]
    rw [List.foldl_cons, hpush, ih _ (by simp; omega)]
    simp

/-- Bytes that just fill the buffer complete one block. -/
theorem foldl_pushByte_of_eq (s : Sha256) (chunk : Bytes)
    (h : (s.buffer ++ chunk).length = 64) :
    chunk.foldl pushByte s =
      { state := transform s.state (s.buffer ++ chunk), bitCount := s.bitCount } := by
  have hne : chunk ≠ [] := by
    rintro rfl
    have := s.buffer_lt
    rw [List.append_nil] at h
    omega
  obtain ⟨init, b, rfl⟩ := List.eq_nil_or_concat chunk |>.resolve_left hne
  rw [List.concat_eq_append] at h ⊢
  rw [List.foldl_append, foldl_pushByte_of_lt s init (by simp at h ⊢; omega), List.foldl_cons,
    List.foldl_nil, pushByte, dif_pos (by simp at h ⊢; omega), List.append_assoc]

/-- The loop of `update` takes its bytes one by one. -/
theorem updateLoop_eq_foldl (s : Sha256) (data : Bytes) :
    updateLoop s data = data.foldl pushByte s := by
  fun_induction updateLoop s data with
  | case1 s => rfl
  | case2 s data hne copySize buffer hfull ih =>
    rw [ih, ← foldl_pushByte_of_eq s _ hfull, ← List.foldl_append, List.take_append_drop]
  | case3 s data hne copySize buffer hfull ih =>
    rw [ih]
    have hlt : (s.buffer ++ data.take copySize).length < 64 := by
      have := s.buffer_lt
      simp only [buffer, copySize, List.length_append, List.length_take] at hfull ⊢
      omega
    rw [← foldl_pushByte_of_lt s _ hlt, ← List.foldl_append, List.take_append_drop]

/-- The bit count passes through the loop untouched, and the loop does not look at it. -/
theorem foldl_pushByte_bitCount (s : Sha256) (n : UInt64) (data : Bytes) :
    data.foldl pushByte { s with bitCount := n }
      = { data.foldl pushByte s with bitCount := n } := by
  induction data generalizing s with
  | nil => rfl
  | cons b data ih =>
    have hpush : pushByte { s with bitCount := n } b = { pushByte s b with bitCount := n } := by
      unfold pushByte
      split <;> rfl
    rw [List.foldl_cons, hpush, ih, List.foldl_cons]

/-- **Two chunks hash like their concatenation.** -/
theorem update_append (s : Sha256) (xs ys : Bytes) :
    (s.update xs).update ys = s.update (xs ++ ys) := by
  simp only [update, updateLoop_eq_foldl, foldl_pushByte_bitCount, List.foldl_append,
    List.length_append, UInt64.ofNat_add]
  congr 1
  rw [UInt64.add_mul, UInt64.add_assoc]

end Sha256

end Sidlc
