import Sidlc.Library.SecureHash
import Sidlc.Sha256

/-!
# The hasher computes SHA-256

`SecureHash.sha256` is the standard's own definition, on bit strings. `pushByte` carries the
comparison: the loop of `update` takes bytes one by one, the padding that `finish` appends is taken
the same way, and what has been taken in whole blocks is the standard's chain of hash values.
-/

namespace Sidlc

namespace Sha256

open SecureHash (Words bytesBits blockWord roundConstant)

/-! ### One block -/

/-- The eight words of a state under the names of the standard. -/
def words (state : Vector UInt32 8) : Words :=
  ⟨state.get 0, state.get 1, state.get 2, state.get 3, state.get 4, state.get 5, state.get 6,
    state.get 7⟩

theorem words_init : words init.state = SecureHash.initial := by
  decide +kernel

theorem k_eq_roundConstant : ∀ t ∈ List.range 64, k.getD t 0 = roundConstant t := by
  decide +kernel

theorem words_round (v : Vector UInt32 8) (ki wi : UInt32) :
    words (round v ki wi) = (words v).round ki wi :=
  rfl

theorem words_zipWith_add (v w : Vector UInt32 8) :
    words (Vector.zipWith (· + ·) v w) = (words v).add (words w) := by
  have hget (i : Fin 8) : (Vector.zipWith (· + ·) v w).get i = v.get i + w.get i :=
    Vector.getElem_zipWith i.isLt
  simp only [words, Words.add, hget]

/-- A byte written behind the bytes already there. -/
theorem shiftLeft_or_byte (n b : Nat) (k : Nat) (h : b < 2 ^ 8) :
    (n <<< 8 <<< k) ||| (b <<< k) = (n * 256 + b) <<< k := by
  rw [← Nat.shiftLeft_or_distrib, ← Nat.shiftLeft_add_eq_or_of_lt h, Nat.shiftLeft_eq n]

/-- The word that four bytes are joined into. -/
theorem toNat_joinBytes (b0 b1 b2 b3 : UInt8) :
    ((b0.toUInt32 <<< 24) ||| (b1.toUInt32 <<< 16) ||| (b2.toUInt32 <<< 8) ||| b3.toUInt32).toNat
      = ((b0.toNat * 256 + b1.toNat) * 256 + b2.toNat) * 256 + b3.toNat := by
  have hshift (b : UInt8) (k : UInt32) (hk : k.toNat ≤ 24) :
      (b.toUInt32 <<< k).toNat = b.toNat <<< k.toNat := by
    have hb := b.toNat_lt
    have hpow : 2 ^ k.toNat ≤ 2 ^ 24 := Nat.pow_le_pow_right (by omega) hk
    rw [UInt32.toNat_shiftLeft, UInt8.toNat_toUInt32, Nat.mod_eq_of_lt (a := k.toNat) (by omega),
      Nat.shiftLeft_eq]
    refine Nat.mod_eq_of_lt ?_
    calc b.toNat * 2 ^ k.toNat < 2 ^ 8 * 2 ^ k.toNat :=
          Nat.mul_lt_mul_of_pos_right hb (Nat.two_pow_pos _)
      _ ≤ 2 ^ 8 * 2 ^ 24 := Nat.mul_le_mul_left _ hpow
  -- the shifted bytes do not overlap
  have h01 := shiftLeft_or_byte b0.toNat b1.toNat 16 b1.toNat_lt
  have h02 := shiftLeft_or_byte (b0.toNat * 256 + b1.toNat) b2.toNat 8 b2.toNat_lt
  have h03 := shiftLeft_or_byte ((b0.toNat * 256 + b1.toNat) * 256 + b2.toNat) b3.toNat 0
    b3.toNat_lt
  rw [UInt32.toNat_or, UInt32.toNat_or, UInt32.toNat_or, hshift b0 24 (by decide),
    hshift b1 16 (by decide), hshift b2 8 (by decide), UInt8.toNat_toUInt32]
  rw [← Nat.shiftLeft_add] at h01 h02 h03
  exact (congrArg (fun n => n ||| b2.toNat <<< 8 ||| b3.toNat) h01).trans
    ((congrArg (fun n => n ||| b3.toNat) h02).trans h03)

/-- The first sixteen words of the message schedule are those of the block. -/
theorem joinBytes_eq_blockWord {block : Bytes} (hblock : block.length = 64) {t : Nat}
    (ht : t < 16) :
    ((block.getD (t * 4) 0).toUInt32 <<< 24) ||| ((block.getD (t * 4 + 1) 0).toUInt32 <<< 16)
        ||| ((block.getD (t * 4 + 2) 0).toUInt32 <<< 8) ||| (block.getD (t * 4 + 3) 0).toUInt32
      = blockWord (bytesBits block) t := by
  have hget (i : Nat) (hi : i < block.length) : block.getD i 0 = block[i] := by
    rw [List.getD_eq_getElem?_getD, List.getElem?_eq_getElem hi, Option.getD_some]
  apply UInt32.toNat_inj.1
  rw [toNat_joinBytes, SecureHash.blockWord_bytesBits (by omega), Nat.mul_comm t 4,
    hget (4 * t) (by omega), hget (4 * t + 1) (by omega), hget (4 * t + 2) (by omega),
    hget (4 * t + 3) (by omega)]

/-- The step that extends the message schedule. -/
def extend (w : Array UInt32) (i : Nat) : Array UInt32 :=
  let s0 := rotr (w.getD (i - 15) 0) 7 ^^^ rotr (w.getD (i - 15) 0) 18
    ^^^ (w.getD (i - 15) 0 >>> 3)
  let s1 := rotr (w.getD (i - 2) 0) 17 ^^^ rotr (w.getD (i - 2) 0) 19
    ^^^ (w.getD (i - 2) 0 >>> 10)
  w.push (w.getD (i - 16) 0 + s0 + w.getD (i - 7) 0 + s1)

/-- `w` holds the first `n` words of the message schedule. -/
def Holds (block : Bytes) (n : Nat) (w : Array UInt32) : Prop :=
  w.size = n ∧ ∀ t < n, w.getD t 0 = SecureHash.schedule (blockWord (bytesBits block)) t

theorem holds_extend {block : Bytes} {n : Nat} {w : Array UInt32} (hn : 16 ≤ n)
    (h : Holds block n w) : Holds block (n + 1) (extend w n) := by
  obtain ⟨hsize, hw⟩ := h
  refine ⟨by rw [extend, Array.size_push, hsize], fun t ht => ?_⟩
  by_cases hlt : t < n
  · have hget : (extend w n).getD t 0 = w.getD t 0 := by
      simp [extend, Array.getD, hsize, hlt, ht, Array.getElem_push]
    rw [hget, hw t hlt]
  · have ht : t = n := by omega
    have hget : (extend w n).getD n 0 = w.getD (n - 16) 0
        + SecureHash.smallSigma0 (w.getD (n - 15) 0) + w.getD (n - 7) 0
        + SecureHash.smallSigma1 (w.getD (n - 2) 0) := by
      have hpush (x : UInt32) : (w.push x).getD n 0 = x := by
        simp [Array.getD, hsize, Array.getElem_push]
      exact hpush _
    rw [ht, hget, hw _ (by omega), hw _ (by omega), hw _ (by omega), hw _ (by omega),
      SecureHash.schedule.eq_1 _ n, if_neg (by omega)]
    ac_rfl

/-- The words that the schedule starts from. -/
def firstWords (block : Bytes) : Array UInt32 :=
  let byte (i : Nat) : UInt32 := (block.getD i 0).toUInt32
  ((List.range 16).map fun i =>
    (byte (i * 4) <<< 24) ||| (byte (i * 4 + 1) <<< 16) ||| (byte (i * 4 + 2) <<< 8)
      ||| byte (i * 4 + 3)).toArray

theorem schedule_eq_foldl (block : Bytes) :
    schedule block = (List.range' 16 48).foldl extend (firstWords block) :=
  rfl

theorem holds_firstWords {block : Bytes} (hblock : block.length = 64) :
    Holds block 16 (firstWords block) := by
  refine ⟨by rw [firstWords, List.size_toArray, List.length_map, List.length_range],
    fun t ht => ?_⟩
  have hget (f : Nat → UInt32) : ((List.range 16).map f).toArray.getD t 0 = f t := by
    simp [Array.getD, ht]
  rw [firstWords, hget, SecureHash.schedule, if_pos ht]
  exact joinBytes_eq_blockWord hblock ht

theorem holds_foldl_extend {block : Bytes} {w : Array UInt32} (h : Holds block 16 w) (n : Nat) :
    Holds block (16 + n) ((List.range' 16 n).foldl extend w) := by
  induction n with
  | zero => exact h
  | succ n ih =>
    rw [List.range'_concat, List.foldl_append, Nat.one_mul]
    exact holds_extend (Nat.le_add_right 16 n) ih

theorem holds_schedule {block : Bytes} (hblock : block.length = 64) :
    Holds block 64 (schedule block) := by
  rw [schedule_eq_foldl]
  exact holds_foldl_extend (holds_firstWords hblock) 48

/-- **`transform` is the standard's computation on one block.** -/
theorem words_transform (state : Vector UInt32 8) {block : Bytes} (hblock : block.length = 64) :
    words (transform state block) = SecureHash.compress (words state) (bytesBits block) := by
  obtain ⟨-, hw⟩ := holds_schedule hblock
  have hrounds (ts : List Nat) (hts : ∀ t ∈ ts, t ∈ List.range 64) (v : Vector UInt32 8) :
      words (ts.foldl (fun v i => round v (k.getD i 0) ((schedule block).getD i 0)) v)
        = ts.foldl (fun v t => v.round (roundConstant t)
            (SecureHash.schedule (blockWord (bytesBits block)) t)) (words v) := by
    induction ts generalizing v with
    | nil => rfl
    | cons t ts ih =>
      obtain ⟨ht, hts⟩ := List.forall_mem_cons.1 hts
      rw [List.foldl_cons, List.foldl_cons, ih hts, words_round, k_eq_roundConstant t ht,
        hw t (List.mem_range.1 ht)]
  rw [transform, words_zipWith_add, hrounds _ (fun _ h => h)]
  rfl

/-! ### Whole messages -/

/-- Whole blocks pass through the buffer one after another. -/
theorem words_foldl_pushByte (data : Bytes) (n : Nat) (h : 64 * n ≤ data.length) :
    ((data.take (64 * n)).foldl pushByte init).buffer = [] ∧
      words ((data.take (64 * n)).foldl pushByte init).state
        = (List.range n).foldl (fun hash i =>
            SecureHash.compress hash (SecureHash.block (bytesBits data) i)) SecureHash.initial := by
  -- block by block: the buffer is empty in between
  induction n with
  | zero => exact ⟨rfl, words_init⟩
  | succ n ih =>
    obtain ⟨hbuffer, hwords⟩ := ih (by omega)
    have hlength : ((data.drop (64 * n)).take 64).length = 64 := by
      rw [List.length_take, List.length_drop]
      omega
    have hblock : bytesBits ((data.drop (64 * n)).take 64)
      = SecureHash.block (bytesBits data) n := by
      have h512 : 512 * n = 8 * (64 * n) := by omega
      rw [SecureHash.block, h512, SecureHash.drop_bytesBits]
      exact (SecureHash.take_bytesBits _ 64).symm
    have hstep := foldl_pushByte_of_eq ((data.take (64 * n)).foldl pushByte init)
      ((data.drop (64 * n)).take 64) (by rw [hbuffer, List.nil_append, hlength])
    rw [Nat.mul_succ, List.take_add, List.foldl_append, hstep, hbuffer, List.nil_append]
    refine ⟨rfl, ?_⟩
    rw [List.range_succ, List.foldl_append, ← hwords, List.foldl_cons, List.foldl_nil, ← hblock]
    exact words_transform _ hlength

/-- The buffer holds what is left over of whole blocks. -/
theorem length_buffer_foldl_pushByte (s : Sha256) (data : Bytes) :
    (data.foldl pushByte s).buffer.length = (s.buffer.length + data.length) % 64 := by
  induction data generalizing s with
  | nil => exact (Nat.mod_eq_of_lt s.buffer_lt).symm
  | cons b data ih =>
    have hlt := s.buffer_lt
    rw [List.foldl_cons, ih, List.length_cons]
    unfold pushByte
    split_ifs with hfull
    · show ([].length + data.length) % 64 = _
      rw [List.length_nil]
      omega
    · show ((s.buffer ++ [b]).length + data.length) % 64 = _
      rw [List.length_append, List.length_singleton]
      omega

/-- The digest that `finish` reads out of the last state. -/
def digestBytes (state : Vector UInt32 8) : Hash :=
  (state.map wordBytes).flatten

theorem lengthBytes_bitCount (bitCount : UInt64) :
    ((List.range 8).reverse.map fun i => (bitCount >>> UInt64.ofNat (i * 8)).toUInt8)
      = SecureHash.lengthBytes bitCount.toNat := by
  refine List.map_congr_left fun i hi => ?_
  have hlt : i < 8 := List.mem_range.1 (List.mem_reverse.1 hi)
  apply UInt8.toNat_inj.1
  rw [UInt64.toNat_toUInt8, UInt64.toNat_shiftRight, UInt64.toNat_ofNat', UInt8.toNat_ofNat',
    Nat.shiftRight_eq_div_pow, Nat.mod_eq_of_lt (a := i * 8) (by omega),
    Nat.mod_eq_of_lt (a := i * 8) (by omega)]

/-- `finish` takes the padding as if it came through `update`. -/
theorem finish_eq_foldl_pushByte (s : Sha256) :
    s.finish = digestBytes (([0x80] ++ List.replicate ((55 + 64 - s.buffer.length) % 64) 0
      ++ SecureHash.lengthBytes s.bitCount.toNat).foldl pushByte s).state := by
  have hlt := s.buffer_lt
  have hlength : (SecureHash.lengthBytes s.bitCount.toNat).length = 8 := by
    simp [SecureHash.lengthBytes]
  unfold finish
  dsimp only
  rw [lengthBytes_bitCount]
  by_cases hlong : (s.buffer ++ [0x80]).length > 56
  · -- no room for the length: the zeros complete one block and begin another
    rw [if_pos hlong]
    rw [List.length_append, List.length_singleton] at hlong
    have hzeros : List.replicate ((55 + 64 - s.buffer.length) % 64) (0 : UInt8)
        = List.replicate (64 - (s.buffer.length + 1)) 0 ++ List.replicate 56 0 := by
      rw [List.replicate_append_replicate]
      congr 1
      omega
    have hfirst : s.buffer ++ ([0x80] ++ List.replicate (64 - (s.buffer.length + 1)) 0)
        = padTo 64 (s.buffer ++ [0x80]) := by
      rw [padTo, List.length_append, List.length_singleton, List.append_assoc]
    have hfull : (padTo 64 (s.buffer ++ [0x80])).length = 64 := by
      rw [padTo]
      simp only [List.length_append, List.length_singleton, List.length_replicate]
      omega
    have hsplit : [0x80] ++ List.replicate ((55 + 64 - s.buffer.length) % 64) 0
          ++ SecureHash.lengthBytes s.bitCount.toNat
        = ([0x80] ++ List.replicate (64 - (s.buffer.length + 1)) 0)
          ++ (padTo 56 [] ++ SecureHash.lengthBytes s.bitCount.toNat) := by
      rw [hzeros]
      simp [padTo]
    have hsecond : (padTo 56 [] ++ SecureHash.lengthBytes s.bitCount.toNat).length = 64 := by
      rw [List.length_append, hlength]
      rfl
    rw [hsplit, List.foldl_append, foldl_pushByte_of_eq s _ (by rw [hfirst, hfull]), hfirst,
      foldl_pushByte_of_eq _ _ (by rw [List.nil_append, hsecond]), List.nil_append]
    rfl
  · rw [if_neg hlong]
    rw [List.length_append, List.length_singleton] at hlong
    have hsplit : s.buffer ++ ([0x80] ++ List.replicate ((55 + 64 - s.buffer.length) % 64) 0
          ++ SecureHash.lengthBytes s.bitCount.toNat)
        = padTo 56 (s.buffer ++ [0x80]) ++ SecureHash.lengthBytes s.bitCount.toNat := by
      have hzeros : (55 + 64 - s.buffer.length) % 64 = 56 - (s.buffer.length + 1) := by omega
      rw [padTo, hzeros, List.length_append, List.length_singleton]
      simp only [List.append_assoc]
    have hfull : (padTo 56 (s.buffer ++ [0x80])
        ++ SecureHash.lengthBytes s.bitCount.toNat).length = 64 := by
      rw [padTo]
      simp only [List.length_append, List.length_singleton, List.length_replicate, hlength]
      omega
    rw [foldl_pushByte_of_eq s _ (by rw [hsplit, hfull]), hsplit]
    rfl

theorem bytesBits_wordBytes (x : UInt32) :
    bytesBits (wordBytes x).toList = SecureHash.bitsOf 32 x.toNat := by
  have hbyte (n : UInt32) : SecureHash.bitsOf 8 n.toUInt8.toNat = SecureHash.bitsOf 8 n.toNat := by
    rw [UInt32.toNat_toUInt8]
    exact SecureHash.bitsOf_mod 8 n.toNat
  have hsplit : SecureHash.bitsOf 32 x.toNat = SecureHash.bitsOf 8 (x.toNat / 2 ^ 24)
      ++ (SecureHash.bitsOf 8 (x.toNat / 2 ^ 16) ++ (SecureHash.bitsOf 8 (x.toNat / 2 ^ 8)
        ++ SecureHash.bitsOf 8 x.toNat)) := by
    rw [← SecureHash.bitsOf_add 8 8, ← SecureHash.bitsOf_add 8 16, ← SecureHash.bitsOf_add 8 24]
  have hbytes : (wordBytes x).toList
      = [(x >>> 24).toUInt8, (x >>> 16).toUInt8, (x >>> 8).toUInt8, x.toUInt8] := rfl
  rw [hsplit, hbytes]
  simp only [SecureHash.bytesBits_cons, SecureHash.bytesBits_nil, List.append_nil, hbyte,
    UInt32.toNat_shiftRight, Nat.shiftRight_eq_div_pow]
  rfl

theorem toList_eq_words (state : Vector UInt32 8) :
    state.toList = [state.get 0, state.get 1, state.get 2, state.get 3, state.get 4, state.get 5,
      state.get 6, state.get 7] := by
  refine List.ext_getElem (by rw [Vector.length_toList]; rfl) fun i h _ => ?_
  rw [Vector.length_toList] at h
  rw [Vector.getElem_toList]
  have hi : i = 0 ∨ i = 1 ∨ i = 2 ∨ i = 3 ∨ i = 4 ∨ i = 5 ∨ i = 6 ∨ i = 7 := by omega
  rcases hi with rfl | rfl | rfl | rfl | rfl | rfl | rfl | rfl <;> rfl

theorem bytesBits_digestBytes (state : Vector UInt32 8) :
    bytesBits (digestBytes state).toList = (words state).bits := by
  have hflatten : (digestBytes state).toList
    = state.toList.flatMap fun x => (wordBytes x).toList := by
    obtain ⟨⟨xs⟩, hsize⟩ := state
    simp only [digestBytes, Vector.map_mk, Vector.flatten_mk, List.map_toArray, List.map_map,
      List.flatMap_def, Array.flatten_toArray, Vector.toList_mk]
    rfl
  rw [hflatten, toList_eq_words, Words.bits, SecureHash.bytesBits, List.flatMap_assoc]
  exact List.flatMap_congr fun x _ => bytesBits_wordBytes x

theorem foldl_update (s : Sha256) (chunks : List Bytes) :
    chunks.foldl update s = update s chunks.flatten := by
  induction chunks generalizing s with
  | nil =>
    have hzero : s.bitCount + UInt64.ofNat ([] : Bytes).length * 8 = s.bitCount :=
      UInt64.add_zero s.bitCount
    rw [List.flatten_nil, update, hzero, updateLoop_eq_foldl]
    rfl
  | cons chunk chunks ih => rw [List.foldl_cons, ih, update_append, List.flatten_cons]

/-- **The streaming hash is SHA-256.** However a message is cut into chunks, `finish` returns the
digest that the standard defines. -/
theorem finish_foldl_update (chunks : List Bytes) (h : chunks.flatten.length < 2 ^ 61) :
    bytesBits (chunks.foldl update init).finish.toList
      = SecureHash.sha256 (bytesBits chunks.flatten) := by
  rw [foldl_update]
  generalize chunks.flatten = message at h
  have hcount : (UInt64.ofNat message.length * 8).toNat = 8 * message.length := by
    rw [UInt64.toNat_mul, UInt64.toNat_ofNat']
    show message.length % 2 ^ 64 * 8 % 2 ^ 64 = _
    omega
  -- the hasher that has taken the message
  let taken : Sha256 := message.foldl pushByte init
  have hupdate : update init message
      = { taken with bitCount := UInt64.ofNat message.length * 8 } := by
    rw [update, updateLoop_eq_foldl, foldl_pushByte_bitCount]
    exact congrArg (fun n => ({ taken with bitCount := n } : Sha256)) (UInt64.zero_add _)
  have hbuffer : taken.buffer.length = message.length % 64 := by
    rw [length_buffer_foldl_pushByte]
    exact congrArg (· % 64) (Nat.zero_add _)
  have hpadded : SecureHash.padBytes message = message ++
      ([0x80] ++ List.replicate ((55 + 64 - message.length % 64) % 64) 0
        ++ SecureHash.lengthBytes (8 * message.length)) := by
    rw [SecureHash.padBytes]
    simp only [List.append_assoc]
  have hfinish : (update init message).finish
      = digestBytes ((SecureHash.padBytes message).foldl pushByte init).state := by
    rw [hupdate, finish_eq_foldl_pushByte, foldl_pushByte_bitCount]
    show digestBytes (List.foldl pushByte taken ([0x80] ++ List.replicate
      ((55 + 64 - taken.buffer.length) % 64) 0
      ++ SecureHash.lengthBytes (UInt64.ofNat message.length * 8).toNat)).state = _
    rw [hbuffer, hcount, hpadded]
    exact congrArg (fun s : Sha256 => digestBytes s.state) List.foldl_append.symm
  obtain ⟨n, hn⟩ := SecureHash.length_padBytes message
  obtain ⟨-, hwords⟩ := words_foldl_pushByte (SecureHash.padBytes message) n hn.ge
  rw [List.take_of_length_le hn.le] at hwords
  have hblocks : (bytesBits (SecureHash.padBytes message)).length / 512 = n := by
    rw [SecureHash.length_bytesBits, hn]
    omega
  rw [hfinish, bytesBits_digestBytes, hwords, SecureHash.sha256, SecureHash.pad_bytesBits, hblocks]

/-- The message `abc`, in three chunks of which one is empty. -/
theorem finish_foldl_update_abc :
    bytesBits ([ascii "a", [], ascii "bc"].foldl update init).finish.toList
      = SecureHash.sha256 (bytesBits (ascii "abc")) :=
  finish_foldl_update [ascii "a", [], ascii "bc"] (by decide)

end Sha256

end Sidlc
