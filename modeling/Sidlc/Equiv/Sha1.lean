import Sidlc.Equiv.Sha256
import Sidlc.Equiv.Uuid
import Sidlc.Library.SecureHash1

/-!
# The name-based generator makes version 5 UUIDs

`SecureHash.sha1` is the standard's definition, on bit strings, and `SecureHash.nameUuid` makes an
identifier of a digest. The comparison of `uuids::detail::sha1` with the first goes block by block
as that of `class Sha256` does. This hasher writes only the low thirty-two bits of the length, so
it agrees with the standard on messages that are shorter than half a gibibyte.
-/

namespace Sidlc

namespace Sha1

open SecureHash (bytesBits blockWord rotl)
open SecureHash.Sha1 (Words roundConstant)

/-! ### One block -/

/-- The five words of a digest under the names of the standard. -/
def words (digest : Vector UInt32 5) : Words :=
  ⟨digest.get 0, digest.get 1, digest.get 2, digest.get 3, digest.get 4⟩

theorem words_round (v : Vector UInt32 5) (t : Nat) (wt : UInt32) :
    words (round v t wt) = (words v).round t wt := by
  have h5 : leftRotate v[0] 5 = rotl 5 v[0] :=
    (SecureHash.rotl_eq_xor (by decide) (by decide) v[0]).symm
  have h30 : leftRotate v[1] 30 = rotl 30 v[1] :=
    (SecureHash.rotl_eq_xor (by decide) (by decide) v[1]).symm
  have hf : (if t < 20 then ((v[1] &&& v[2]) ||| (~~~v[1] &&& v[3]), (0x5A827999 : UInt32))
      else if t < 40 then (v[1] ^^^ v[2] ^^^ v[3], 0x6ED9EBA1)
      else if t < 60 then ((v[1] &&& v[2]) ||| (v[1] &&& v[3]) ||| (v[2] &&& v[3]), 0x8F1BBCDC)
      else (v[1] ^^^ v[2] ^^^ v[3], 0xCA62C1D6))
      = (SecureHash.Sha1.f t v[1] v[2] v[3], roundConstant t) := by
    rw [SecureHash.Sha1.roundConstant_eq, SecureHash.Sha1.f]
    split_ifs
    · rw [SecureHash.ch_eq_or]
    · rfl
    · rw [SecureHash.maj_eq_or]
    · rfl
  unfold round
  simp only [hf, h5, h30]
  rfl

theorem words_zipWith_add (v w : Vector UInt32 5) :
    words (Vector.zipWith (· + ·) v w) = (words v).add (words w) := by
  have hget (i : Fin 5) : (Vector.zipWith (· + ·) v w).get i = v.get i + w.get i :=
    Vector.getElem_zipWith i.isLt
  simp only [words, Words.add, hget]

/-- The step that extends the words of a block. -/
def extend (w : Array UInt32) (i : Nat) : Array UInt32 :=
  w.push (leftRotate (w.getD (i - 3) 0 ^^^ w.getD (i - 8) 0 ^^^ w.getD (i - 14) 0
    ^^^ w.getD (i - 16) 0) 1)

/-- `w` holds the first `n` words of the message schedule. -/
def Holds (block : Bytes) (n : Nat) (w : Array UInt32) : Prop :=
  w.size = n ∧ ∀ t < n, w.getD t 0 = SecureHash.Sha1.schedule (blockWord (bytesBits block)) t

theorem holds_extend {block : Bytes} {n : Nat} {w : Array UInt32} (hn : 16 ≤ n)
    (h : Holds block n w) : Holds block (n + 1) (extend w n) := by
  obtain ⟨hsize, hw⟩ := h
  refine ⟨by rw [extend, Array.size_push, hsize], fun t ht => ?_⟩
  by_cases hlt : t < n
  · have hget : (extend w n).getD t 0 = w.getD t 0 := by
      simp [extend, Array.getD, hsize, hlt, ht, Array.getElem_push]
    rw [hget, hw t hlt]
  · have ht : t = n := by omega
    have hget : (extend w n).getD n 0 = leftRotate (w.getD (n - 3) 0 ^^^ w.getD (n - 8) 0
        ^^^ w.getD (n - 14) 0 ^^^ w.getD (n - 16) 0) 1 := by
      simp [extend, Array.getD, hsize, Array.getElem_push]
    have hrotate (x : UInt32) : leftRotate x 1 = rotl 1 x :=
      (SecureHash.rotl_eq_xor (by decide) (by decide) x).symm
    rw [ht, hget, hrotate, hw _ (by omega), hw _ (by omega), hw _ (by omega), hw _ (by omega),
      SecureHash.Sha1.schedule.eq_1 _ n, if_neg (by omega)]

/-- The words of a block without its extension. -/
theorem holds_firstWords {block : Bytes} (hblock : block.length = 64) :
    Holds block 16 (Sha256.firstWords block) := by
  refine ⟨by rw [Sha256.firstWords, List.size_toArray, List.length_map, List.length_range],
    fun t ht => ?_⟩
  have hget (f : Nat → UInt32) : ((List.range 16).map f).toArray.getD t 0 = f t := by
    simp [Array.getD, ht]
  rw [Sha256.firstWords, hget, SecureHash.Sha1.schedule, if_pos ht]
  exact Sha256.joinBytes_eq_blockWord hblock ht

theorem holds_foldl_extend {block : Bytes} {w : Array UInt32} (h : Holds block 16 w) (n : Nat) :
    Holds block (16 + n) ((List.range' 16 n).foldl extend w) := by
  induction n with
  | zero => exact h
  | succ n ih =>
    rw [List.range'_concat, List.foldl_append, Nat.one_mul]
    exact holds_extend (Nat.le_add_right 16 n) ih

theorem holds_schedule {block : Bytes} (hblock : block.length = 64) :
    Holds block 80 (schedule block) :=
  holds_foldl_extend (holds_firstWords hblock) 64

/-- **`process_block` is the standard's computation on one block.** -/
theorem words_processBlock (digest : Vector UInt32 5) {block : Bytes} (hblock : block.length = 64) :
    words (processBlock digest block)
      = SecureHash.Sha1.compress (words digest) (bytesBits block) := by
  obtain ⟨-, hw⟩ := holds_schedule hblock
  have hrounds (ts : List Nat) (hts : ∀ t ∈ ts, t ∈ List.range 80) (v : Vector UInt32 5) :
      words (ts.foldl (fun v i => round v i ((schedule block).getD i 0)) v)
        = ts.foldl (fun v t => v.round t
            (SecureHash.Sha1.schedule (blockWord (bytesBits block)) t)) (words v) := by
    induction ts generalizing v with
    | nil => rfl
    | cons t ts ih =>
      obtain ⟨ht, hts⟩ := List.forall_mem_cons.1 hts
      rw [List.foldl_cons, List.foldl_cons, ih hts, words_round, hw t (List.mem_range.1 ht)]
  rw [processBlock, words_zipWith_add, hrounds _ (fun _ h => h)]
  rfl

/-! ### The bytes of a message -/

theorem processBytes_append (s : Sha1) (xs ys : Bytes) :
    s.processBytes (xs ++ ys) = (s.processBytes xs).processBytes ys :=
  List.foldl_append

/-- Bytes that do not fill the block are only collected. -/
theorem processBytes_of_lt (s : Sha1) (data : Bytes) (h : (s.block ++ data).length < 64) :
    (s.processBytes data).digest = s.digest ∧ (s.processBytes data).block = s.block ++ data := by
  induction data generalizing s with
  | nil => exact ⟨rfl, (List.append_nil _).symm⟩
  | cons octet data ih =>
    have hstep : s.processByte octet
        = { s with block := s.block ++ [octet], byteCount := s.byteCount + 1 } := by
      rw [processByte, if_neg]
      simp only [List.length_append, List.length_cons, List.length_nil] at h ⊢
      omega
    have hrest := ih (s.processByte octet) (by rw [hstep]; simpa using h)
    rw [hstep] at hrest
    rw [processBytes, List.foldl_cons, hstep]
    refine ⟨hrest.1, Eq.trans hrest.2 ?_⟩
    exact List.append_assoc ..

/-- Bytes that just fill the block complete it. -/
theorem processBytes_of_eq (s : Sha1) (data : Bytes) (hne : data ≠ [])
    (h : (s.block ++ data).length = 64) :
    (s.processBytes data).digest = processBlock s.digest (s.block ++ data) ∧
      (s.processBytes data).block = [] := by
  obtain ⟨front, octet, rfl⟩ := List.eq_nil_or_concat data |>.resolve_left hne
  rw [List.concat_eq_append] at h ⊢
  obtain ⟨hdigest, hblock⟩ := processBytes_of_lt s front (by simp at h ⊢; omega)
  have hfull : ((s.processBytes front).block ++ [octet]).length = 64 := by
    rw [hblock, List.append_assoc, h]
  have hlast : (s.processBytes front).processBytes [octet]
      = (s.processBytes front).processByte octet := rfl
  rw [processBytes_append, hlast, processByte, if_pos hfull, hdigest, hblock, List.append_assoc]
  exact ⟨rfl, rfl⟩

/-- The block holds what is left over of whole blocks. -/
theorem length_block_processBytes (s : Sha1) (hs : s.block.length < 64) (data : Bytes) :
    (s.processBytes data).block.length = (s.block.length + data.length) % 64 := by
  induction data generalizing s with
  | nil => exact (Nat.mod_eq_of_lt hs).symm
  | cons octet data ih =>
    have hstep : (s.processByte octet).block.length = (s.block.length + 1) % 64 := by
      have hlength : (s.block ++ [octet]).length = s.block.length + 1 := List.length_append
      unfold processByte
      dsimp only
      split_ifs with hfull
      · rw [← hlength, hfull]
        rfl
      · show (s.block ++ [octet]).length = _
        rw [← hlength]
        exact (Nat.mod_eq_of_lt (by omega)).symm
    have hrest := ih (s.processByte octet) (by omega)
    rw [hstep] at hrest
    rw [processBytes, List.foldl_cons, List.length_cons]
    refine Eq.trans hrest ?_
    omega

theorem byteCount_processBytes (s : Sha1) (data : Bytes) :
    (s.processBytes data).byteCount = s.byteCount + UInt64.ofNat data.length := by
  induction data generalizing s with
  | nil => exact (UInt64.add_zero s.byteCount).symm
  | cons octet data ih =>
    have hstep : (s.processByte octet).byteCount = s.byteCount + 1 := by
      unfold processByte
      dsimp only
      split_ifs <;> rfl
    have hrest := ih (s.processByte octet)
    rw [hstep, UInt64.add_assoc] at hrest
    rw [List.length_cons, Nat.add_comm, UInt64.ofNat_add]
    exact hrest

/-- Whole blocks pass through the hasher one after another. -/
theorem words_processBytes (data : Bytes) (n : Nat) (h : 64 * n ≤ data.length) :
    (processBytes {} (data.take (64 * n))).block = [] ∧
      words (processBytes {} (data.take (64 * n))).digest
        = (List.range n).foldl (fun hash i =>
            SecureHash.Sha1.compress hash (SecureHash.block (bytesBits data) i))
          SecureHash.Sha1.initial := by
  induction n with
  | zero => exact ⟨rfl, rfl⟩
  | succ n ih =>
    obtain ⟨hblock, hwords⟩ := ih (by omega)
    have hlength : ((data.drop (64 * n)).take 64).length = 64 := by
      rw [List.length_take, List.length_drop]
      omega
    have hbits : bytesBits ((data.drop (64 * n)).take 64)
        = SecureHash.block (bytesBits data) n := by
      have h512 : 512 * n = 8 * (64 * n) := by omega
      rw [SecureHash.block, h512, SecureHash.drop_bytesBits]
      exact (SecureHash.take_bytesBits _ 64).symm
    obtain ⟨hdigest, hempty⟩ := processBytes_of_eq (processBytes {} (data.take (64 * n)))
      ((data.drop (64 * n)).take 64) (List.ne_nil_of_length_pos (by omega))
      (by rw [hblock, List.nil_append, hlength])
    rw [Nat.mul_succ, List.take_add, processBytes_append, hdigest, hblock, List.nil_append]
    refine ⟨hempty, ?_⟩
    rw [List.range_succ, List.foldl_append, ← hwords, List.foldl_cons, List.foldl_nil, ← hbits]
    exact words_processBlock _ hlength

/-! ### The padding -/

/-- The eight bytes that `get_digest` writes for the length. -/
def lengthField (bitCount : UInt64) : Bytes :=
  [0, 0, 0, 0, (bitCount >>> 24).toUInt8, (bitCount >>> 16).toUInt8, (bitCount >>> 8).toUInt8,
    bitCount.toUInt8]

/-- Below `2 ^ 32` bits, the length field is that of the standard. -/
theorem lengthField_eq {bitCount : UInt64} (h : bitCount.toNat < 2 ^ 32) :
    lengthField bitCount = SecureHash.lengthBytes bitCount.toNat := by
  rw [← Sha256.lengthBytes_bitCount]
  have hzero (k : UInt64) (hk : 32 ≤ k.toNat) (hlt : k.toNat < 64) :
      (bitCount >>> k).toUInt8 = 0 := by
    apply UInt8.toNat_inj.1
    have hpow : 2 ^ 32 ≤ 2 ^ k.toNat := Nat.pow_le_pow_right (by decide) hk
    rw [UInt64.toNat_toUInt8, UInt64.toNat_shiftRight, Nat.mod_eq_of_lt hlt,
      Nat.shiftRight_eq_div_pow, Nat.div_eq_of_lt (by omega)]
    rfl
  have hself : bitCount >>> 0 = bitCount := by
    apply UInt64.toNat_inj.1
    rw [UInt64.toNat_shiftRight]
    rfl
  have hbytes : ((List.range 8).reverse.map fun i => (bitCount >>> UInt64.ofNat (i * 8)).toUInt8)
      = [(bitCount >>> 56).toUInt8, (bitCount >>> 48).toUInt8, (bitCount >>> 40).toUInt8,
        (bitCount >>> 32).toUInt8, (bitCount >>> 24).toUInt8, (bitCount >>> 16).toUInt8,
        (bitCount >>> 8).toUInt8, (bitCount >>> 0).toUInt8] := rfl
  rw [hbytes, hzero 56 (by decide) (by decide), hzero 48 (by decide) (by decide),
    hzero 40 (by decide) (by decide), hzero 32 (by decide) (by decide), hself]
  rfl

/-- `get_digest` takes the padding as if it came through `process_bytes`. -/
theorem digestBytes_eq (s : Sha1) (hs : s.block.length < 64) :
    s.digestBytes = ((s.processBytes ([0x80] ++ List.replicate ((55 + 64 - s.block.length) % 64) 0
      ++ lengthField (s.byteCount * 8))).digest.map Sha256.wordBytes).flatten := by
  have hone : (s.processByte 0x80).block.length = (s.block.length + 1) % 64 :=
    length_block_processBytes s hs [0x80]
  have hpadded : (if (s.processByte 0x80).block.length > 56
        then padTo 56 (padTo 64 (s.processByte 0x80)) else padTo 56 (s.processByte 0x80))
      = (s.processByte 0x80).processBytes
          (List.replicate ((55 + 64 - s.block.length) % 64) 0) := by
    split_ifs with hlong
    · -- no room for the length: the zeros complete one block and begin another
      have hfirst : (padTo 64 (s.processByte 0x80)).block.length = 0 := by
        rw [padTo, length_block_processBytes _ (by omega), List.length_replicate]
        omega
      have hzeros : (55 + 64 - s.block.length) % 64
          = (64 - (s.processByte 0x80).block.length) + 56 := by
        omega
      rw [padTo, hfirst, hzeros, ← List.replicate_append_replicate, processBytes_append]
      rfl
    · have hzeros : (55 + 64 - s.block.length) % 64 = 56 - (s.processByte 0x80).block.length := by
        omega
      rw [hzeros]
      rfl
  have hlength (t : Sha1) (n : UInt64) : t.processBytes [0, 0, 0, 0, (n >>> 24).toUInt8,
      (n >>> 16).toUInt8, (n >>> 8).toUInt8, n.toUInt8] = t.processBytes (lengthField n) := rfl
  unfold digestBytes
  dsimp only
  rw [hpadded, hlength, processBytes_append, processBytes_append]
  rfl

/-! ### Whole messages -/

theorem bytesBits_wordBytes_flatten (digest : Vector UInt32 5) :
    bytesBits (digest.map Sha256.wordBytes).flatten.toList = (words digest).bits := by
  have hflatten : (digest.map Sha256.wordBytes).flatten.toList
      = digest.toList.flatMap fun x => (Sha256.wordBytes x).toList := by
    obtain ⟨⟨xs⟩, hsize⟩ := digest
    simp only [Vector.map_mk, Vector.flatten_mk, List.map_toArray, List.map_map,
      List.flatMap_def, Array.flatten_toArray, Vector.toList_mk]
    rfl
  have hwords : digest.toList
      = [digest.get 0, digest.get 1, digest.get 2, digest.get 3, digest.get 4] := by
    refine List.ext_getElem (by rw [Vector.length_toList]; rfl) fun i h _ => ?_
    rw [Vector.length_toList] at h
    rw [Vector.getElem_toList]
    have hi : i = 0 ∨ i = 1 ∨ i = 2 ∨ i = 3 ∨ i = 4 := by omega
    rcases hi with rfl | rfl | rfl | rfl | rfl <;> rfl
  rw [hflatten, hwords, Words.bits, bytesBits, List.flatMap_assoc]
  exact List.flatMap_congr fun x _ => Sha256.bytesBits_wordBytes x

/-- **The streaming hash is SHA-1** on messages that its length field can count. -/
theorem digestBytes_processBytes {message : Bytes} (h : message.length < 2 ^ 29) :
    bytesBits (processBytes {} message).digestBytes.toList
      = SecureHash.sha1 (bytesBits message) := by
  have hblock : (processBytes {} message).block.length = message.length % 64 := by
    rw [length_block_processBytes {} (by decide)]
    exact congrArg (· % 64) (Nat.zero_add _)
  have hcount : ((processBytes {} message).byteCount * 8).toNat = 8 * message.length := by
    have hbytes : (processBytes {} message).byteCount = UInt64.ofNat message.length := by
      rw [byteCount_processBytes]
      exact UInt64.zero_add _
    rw [hbytes, UInt64.toNat_mul, UInt64.toNat_ofNat']
    show message.length % 2 ^ 64 * 8 % 2 ^ 64 = _
    omega
  have hpadded : SecureHash.padBytes message = message ++
      ([0x80] ++ List.replicate ((55 + 64 - message.length % 64) % 64) 0
        ++ SecureHash.lengthBytes (8 * message.length)) := by
    rw [SecureHash.padBytes]
    simp only [List.append_assoc]
  have hdigest : (processBytes {} message).digestBytes
      = ((processBytes {} (SecureHash.padBytes message)).digest.map Sha256.wordBytes).flatten := by
    rw [digestBytes_eq _ (by omega), lengthField_eq (by omega), hblock, hcount, hpadded,
      ← processBytes_append]
  obtain ⟨n, hn⟩ := SecureHash.length_padBytes message
  obtain ⟨-, hwords⟩ := words_processBytes (SecureHash.padBytes message) n hn.ge
  rw [List.take_of_length_le hn.le] at hwords
  have hblocks : (bytesBits (SecureHash.padBytes message)).length / 512 = n := by
    rw [SecureHash.length_bytesBits, hn]
    omega
  rw [hdigest, bytesBits_wordBytes_flatten, hwords, SecureHash.sha1, SecureHash.pad_bytesBits,
    hblocks]

end Sha1

/-! ### Identifiers -/

open SecureHash (bytesBits bitsOf)

/-- What `make_uuid` makes of the bytes that carry the version and the variant. -/
theorem bitsOf_stamped : ∀ b : UInt8,
    bitsOf 8 ((b &&& 0x5F) ||| 0x50).toNat = bitsOf 4 5 ++ (bitsOf 8 b.toNat).drop 4 ∧
      bitsOf 8 ((b &&& 0xBF) ||| 0x80).toNat = bitsOf 2 2 ++ (bitsOf 8 b.toNat).drop 2 := by
  decide +kernel

/-- A digest falls apart at the bytes that `make_uuid` stamps. -/
theorem exists_digest_split (digest : Vector UInt8 20) :
    ∃ (front : Bytes) (a b c : UInt8) (rest : Bytes),
      digest.toList = front ++ a :: b :: c :: rest ∧ front.length = 6 := by
  have hlength : digest.toList.length = 20 := digest.length_toList
  refine ⟨digest.toList.take 6, digest.toList[6], digest.toList[7], digest.toList[8],
    digest.toList.drop 9, ?_, by rw [List.length_take, hlength]; rfl⟩
  conv => lhs; rw [← List.take_append_drop 6 digest.toList]
  rw [List.drop_eq_getElem_cons (by omega), List.drop_eq_getElem_cons (by omega),
    List.drop_eq_getElem_cons (by omega)]

/-- The digest of name space and name is the standard's. -/
theorem digestBytes_uuidName (nsuuid : UuidBytes) {name : Bytes} (h : name.length < 2 ^ 29 - 16) :
    bytesBits ((Sha1.processBytes {} nsuuid.toList).processBytes name).digestBytes.toList
      = SecureHash.sha1 (bytesBits nsuuid.toList ++ bytesBits name) := by
  rw [← Sha1.processBytes_append, ← SecureHash.bytesBits_append]
  refine Sha1.digestBytes_processBytes ?_
  rw [List.length_append, Vector.length_toList]
  omega

/-- **The generated identifier is the version 5 UUID of the name** in its name space, and the digest
that it is cut from is SHA-1. -/
theorem bytesBits_uuidNameGenerator (nsuuid : UuidBytes) (name : Bytes)
    (h : name.length < 2 ^ 29 - 16) :
    bytesBits ((Sha1.processBytes {} nsuuid.toList).processBytes name).digestBytes.toList
      = SecureHash.sha1 (bytesBits nsuuid.toList ++ bytesBits name) ∧
    bytesBits (uuidNameGenerator nsuuid name).toList
      = SecureHash.nameUuid (bytesBits nsuuid.toList) (bytesBits name) := by
  have hsha1 := digestBytes_uuidName nsuuid h
  refine ⟨hsha1, ?_⟩
  set digest := ((Sha1.processBytes {} nsuuid.toList).processBytes name).digestBytes with hdigest
  have huuid : (uuidNameGenerator nsuuid name).toList
      = ((digest.toList.set 8 ((digest[8] &&& 0xBF) ||| 0x80)).set 6
          ((digest[6] &&& 0x5F) ||| 0x50)).take 16 := by
    simp only [uuidNameGenerator, ← hdigest, Vector.toList_take, Vector.toList_set]
    simp
  obtain ⟨front, a, b, c, rest, hsplit, hfront⟩ := exists_digest_split digest
  have hlength : digest.toList.length = 20 := digest.length_toList
  have ha : a = digest[6] := by
    rw [← Vector.getElem_toList (by omega)]
    simp [hsplit, hfront]
  have hc : c = digest[8] := by
    rw [← Vector.getElem_toList (by omega)]
    simp [hsplit, hfront]
  obtain ⟨hversion, -⟩ := bitsOf_stamped a
  obtain ⟨-, hvariant⟩ := bitsOf_stamped c
  have hbytes : ((digest.toList.set 8 ((c &&& 0xBF) ||| 0x80)).set 6
      ((a &&& 0x5F) ||| 0x50)).take 16
      = front ++ ((a &&& 0x5F) ||| 0x50) :: b :: ((c &&& 0xBF) ||| 0x80) :: rest.take 7 := by
    have htake : front.take 16 = front := List.take_of_length_le (by omega)
    simp [hsplit, List.take_append, hfront, htake]
  -- the digest cut before the version, behind it, and behind the variant
  have htake : (bytesBits digest.toList).take 48 = bytesBits front := by
    rw [hsplit, SecureHash.bytesBits_append]
    exact List.take_left' (by rw [SecureHash.length_bytesBits, hfront])
  have hmiddle : ((bytesBits digest.toList).drop 52).take 12
      = (bitsOf 8 a.toNat).drop 4 ++ bitsOf 8 b.toNat := by
    have hcut : bytesBits digest.toList = (bytesBits front ++ (bitsOf 8 a.toNat).take 4)
        ++ (((bitsOf 8 a.toNat).drop 4 ++ bitsOf 8 b.toNat) ++ bytesBits (c :: rest)) := by
      rw [hsplit, SecureHash.bytesBits_append, SecureHash.bytesBits_cons a,
        SecureHash.bytesBits_cons b]
      simp only [List.append_assoc, ← List.append_assoc (List.take 4 _), List.take_append_drop]
    rw [hcut, List.drop_left' (by simp [hfront]), List.take_left' (by simp)]
  have hlast : ((bytesBits digest.toList).drop 66).take 62
      = (bitsOf 8 c.toNat).drop 2 ++ bytesBits (rest.take 7) := by
    have hcut : bytesBits digest.toList = (bytesBits (front ++ [a, b]) ++ (bitsOf 8 c.toNat).take 2)
        ++ ((bitsOf 8 c.toNat).drop 2 ++ bytesBits rest) := by
      have hpair : front ++ a :: b :: c :: rest = (front ++ [a, b]) ++ c :: rest := by simp
      rw [hsplit, hpair, SecureHash.bytesBits_append, SecureHash.bytesBits_cons c]
      simp only [List.append_assoc, ← List.append_assoc (List.take 2 _), List.take_append_drop]
    have hsix : ((bitsOf 8 c.toNat).drop 2).length = 6 := by simp
    rw [hcut, List.drop_left' (by simp [hfront]), List.take_append,
      List.take_of_length_le (by omega), hsix]
    exact congrArg _ (SecureHash.take_bytesBits rest 7)
  rw [SecureHash.nameUuid, ← hsha1, huuid, ← ha, ← hc, hbytes, htake, hmiddle, hlast,
    SecureHash.bytesBits_append]
  simp only [SecureHash.bytesBits_cons, hversion, hvariant, List.append_assoc]

/-- A name in the name space of DNS names. -/
theorem bytesBits_uuidNameGenerator_dns :
    let dns : UuidBytes := #v[0x6b, 0xa7, 0xb8, 0x10, 0x9d, 0xad, 0x11, 0xd1, 0x80, 0xb4, 0x00,
      0xc0, 0x4f, 0xd4, 0x30, 0xc8]
    let name := ascii "www.example.com"
    bytesBits ((Sha1.processBytes {} dns.toList).processBytes name).digestBytes.toList
      = SecureHash.sha1 (bytesBits dns.toList ++ bytesBits name) ∧
    bytesBits (uuidNameGenerator dns name).toList
      = SecureHash.nameUuid (bytesBits dns.toList) (bytesBits name) :=
  bytesBits_uuidNameGenerator _ _ (by decide)

end Sidlc
