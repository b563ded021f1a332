import Sidlc.Equiv.Uuid

/-!
# Which texts are UUIDs

`from_string` reads the printed form of a UUID in any letter case, with hyphens anywhere or nowhere,
and in braces or without (`fromString_eq_some_iff`), and nothing else. `is_valid_uuid` makes the
same scan and says the same.
-/

namespace Sidlc

namespace Uuid

/-! ### Digits -/

/-- The text without its hyphens. -/
def digits (text : Bytes) : Bytes :=
  text.filter fun c => c ≠ 45

/-- A letter in lower case. -/
def lowerCase (c : UInt8) : UInt8 :=
  if 65 ≤ c ∧ c ≤ 90 then c + 32 else c

theorem lowerCase_spec : ∀ c : UInt8, isHex (lowerCase c) = isHex c ∧
    hex2char (lowerCase c) = hex2char c ∧ (lowerCase c = 45 ↔ c = 45) ∧
    lowerCase (lowerCase c) = lowerCase c := by
  decide +kernel

/-- A digit in lower case is the one that `guid_encoder` has for its value. -/
theorem guidEncoder_hex2char : ∀ c : UInt8, isHex c = true → lowerCase c = c →
    guidEncoder (hex2char c) = c ∧ hex2char c < 16 := by
  decide +kernel

theorem scanStep_lowerCase (s : Scan) (c : UInt8) : scanStep s (lowerCase c) = scanStep s c := by
  obtain ⟨hhex, hvalue, hhyphen, -⟩ := lowerCase_spec c
  unfold scanStep
  simp only [hhex, hvalue, hhyphen]

/-- The scan does not look at hyphens or at the letter case. -/
theorem foldlM_digits (s : Scan) (text : Bytes) :
    ((digits text).map lowerCase).foldlM scanStep s = text.foldlM scanStep s := by
  induction text generalizing s with
  | nil => rfl
  | cons c text ih =>
    by_cases hc : c = 45
    · have hdigits : digits (c :: text) = digits text := by simp [digits, hc]
      have hstep : scanStep s c = some s := by simp [scanStep, hc]
      rw [hdigits, ih, List.foldlM_cons, hstep]
      rfl
    · have hdigits : digits (c :: text) = c :: digits text := by simp [digits, hc]
      rw [hdigits, List.map_cons, List.foldlM_cons, List.foldlM_cons, scanStep_lowerCase]
      exact congrArg _ (funext fun s => ih s)

/-- The digits of the bytes from an index on. -/
def digitsFrom (id : UuidBytes) (index : Nat) : Bytes :=
  (List.range' index (16 - index)).flatMap fun i => hexByte (id.toList.getD i 0)

theorem digits_hexByte (b : UInt8) : digits (hexByte b) = hexByte b := by
  have hhigh := (hexDigit_spec (b >>> 4)).1
  have hlow := (hexDigit_spec b).1
  simp [digits, hexByte, hhigh, hlow]

theorem digits_toString (id : UuidBytes) : digits (toString id) = digitsFrom id 0 := by
  have hrange : List.range 16 = List.range' 0 (16 - 0) := List.range_eq_range'
  have hpiece (i : Nat) : digits (piece id i) = hexByte (id.toList.getD i 0) := by
    rw [piece, digits, List.filter_append]
    refine Eq.trans ?_ (digits_hexByte _)
    split_ifs <;> rfl
  show digits ((List.range 16).flatMap (piece id)) = _
  rw [digits, List.filter_flatMap, digitsFrom, hrange]
  exact List.flatMap_congr fun i _ => hpiece i

theorem digitsFrom_eq (id : UuidBytes) {index : Nat} (h : index < 16) :
    digitsFrom id index = hexByte id[index] ++ digitsFrom id (index + 1) := by
  have hlength : 16 - index = 16 - (index + 1) + 1 := by omega
  have hbyte : id.toList.getD index 0 = id[index] := by simp [List.getD, h]
  rw [digitsFrom, hlength, List.range'_succ, List.flatMap_cons, hbyte]
  rfl

/-- Two digits in lower case are those of the byte they make. -/
theorem hexByte_joined {a b : UInt8} (ha : isHex a = true ∧ lowerCase a = a)
    (hb : isHex b = true ∧ lowerCase b = b) :
    hexByte ((hex2char a <<< 4) ||| hex2char b) = [a, b] := by
  have hnibbles : ∀ x y : Fin 16,
      ((UInt8.ofNat x <<< 4) ||| UInt8.ofNat y) >>> 4 &&& 0x0f = UInt8.ofNat x ∧
        ((UInt8.ofNat x <<< 4) ||| UInt8.ofNat y) &&& 0x0f = UInt8.ofNat y := by
    decide
  obtain ⟨hencode, hlt⟩ := guidEncoder_hex2char a ha.1 ha.2
  obtain ⟨hencode', hlt'⟩ := guidEncoder_hex2char b hb.1 hb.2
  obtain ⟨hhigh, hlow⟩ := hnibbles ⟨(hex2char a).toNat, UInt8.lt_iff_toNat_lt.1 hlt⟩
    ⟨(hex2char b).toNat, UInt8.lt_iff_toNat_lt.1 hlt'⟩
  simp only [UInt8.ofNat_toNat] at hhigh hlow
  rw [hexByte, hhigh, hlow, hencode, hencode']

/-- One digit is read into the place at the index. -/
theorem scanStep_eq_some {s s' : Scan} {c : UInt8} (hc : c ≠ 45) (h : scanStep s c = some s') :
    s.index < 16 ∧ isHex c = true ∧ s' =
      if s.firstDigit then
        { s with data := s.data.setIfInBounds s.index (hex2char c <<< 4), firstDigit := false }
      else
        { s with
          data := s.data.setIfInBounds s.index (s.data.toList.getD s.index 0 ||| hex2char c)
          index := s.index + 1
          firstDigit := true } := by
  unfold scanStep at h
  rw [if_neg hc] at h
  split_ifs at h with hbad hfirst
  · simp only [Bool.or_eq_true, decide_eq_true_eq, Bool.not_eq_true', not_or] at hbad
    rw [if_pos hfirst]
    exact ⟨by omega, by simpa using hbad.2, (Option.some.inj h).symm⟩
  · simp only [Bool.or_eq_true, decide_eq_true_eq, Bool.not_eq_true', not_or] at hbad
    rw [if_neg hfirst]
    exact ⟨by omega, by simpa using hbad.2, (Option.some.inj h).symm⟩

/-- Two digits are read into one byte. -/
theorem foldlM_two {a b : UInt8} (ha : a ≠ 45) (hb : b ≠ 45) {ds : Bytes} {index : Nat}
    {data : UuidBytes} {s : Scan}
    (h : (a :: b :: ds).foldlM scanStep ⟨true, index, data⟩ = some s) :
    index < 16 ∧ isHex a = true ∧ isHex b = true ∧ ds.foldlM scanStep
      ⟨true, index + 1, data.setIfInBounds index ((hex2char a <<< 4) ||| hex2char b)⟩ = some s := by
  obtain ⟨s₁, hfirst, h⟩ := Option.bind_eq_some_iff.1 h
  obtain ⟨hlt, hahex, rfl⟩ := scanStep_eq_some ha hfirst
  obtain ⟨s₂, hsecond, h⟩ := Option.bind_eq_some_iff.1 h
  obtain ⟨-, hbhex, rfl⟩ := scanStep_eq_some hb hsecond
  have hindex : index < 16 := hlt
  have hread (c : UInt8) : (data.setIfInBounds index c).toList.getD index 0 = c := by
    simp [List.getD, hindex]
  simp only [if_true, Bool.false_eq_true, if_false, hread] at h
  refine ⟨hindex, hahex, hbhex, ?_⟩
  rw [← h]
  congr 2
  simp

/-- What the scan reads from digits in lower case: the bytes from its index on. -/
theorem scan_digits {ds : Bytes} (hlower : ∀ c ∈ ds, lowerCase c = c ∧ c ≠ 45) {index n : Nat}
    (hn : index + n = 16) {data : UuidBytes} {s : Scan}
    (h : ds.foldlM scanStep ⟨true, index, data⟩ = some s) (hs : 16 ≤ s.index) :
    ds = digitsFrom s.data index ∧ ∀ (j : Nat) (hj : j < 16), j < index → s.data[j] = data[j] := by
  induction n generalizing ds index data with
  | zero =>
    cases ds with
    | nil =>
      obtain rfl := Option.some.inj h
      have hlast : index = 16 := hn
      subst hlast
      exact ⟨rfl, fun _ _ _ => rfl⟩
    | cons a ds =>
      rw [List.forall_mem_cons] at hlower
      obtain ⟨s₁, hfirst, -⟩ := Option.bind_eq_some_iff.1 h
      obtain ⟨hlt, -⟩ := scanStep_eq_some hlower.1.2 hfirst
      exact absurd hn (by change index < 16 at hlt; omega)
  | succ n ih =>
    -- a byte takes two digits, and there is one more to come
    rcases ds with _ | ⟨a, _ | ⟨b, ds⟩⟩
    · obtain rfl := Option.some.inj h
      exact absurd hs (by show ¬ 16 ≤ index; omega)
    · rw [List.forall_mem_singleton] at hlower
      obtain ⟨s₁, hfirst, h⟩ := Option.bind_eq_some_iff.1 h
      obtain ⟨-, -, rfl⟩ := scanStep_eq_some hlower.2 hfirst
      obtain rfl := Option.some.inj h
      exact absurd hs (by show ¬ 16 ≤ index; omega)
    · rw [List.forall_mem_cons, List.forall_mem_cons] at hlower
      obtain ⟨ha, hb, hds⟩ := hlower
      obtain ⟨hlt, hahex, hbhex, hrest⟩ := foldlM_two ha.2 hb.2 h
      obtain ⟨heq, hdata⟩ := ih hds (by omega) hrest
      have hbyte : s.data[index] = (hex2char a <<< 4) ||| hex2char b := by
        rw [hdata index hlt (Nat.lt_succ_self index)]
        simp
      refine ⟨?_, fun j hj hji => ?_⟩
      · rw [digitsFrom_eq _ hlt, hbyte, hexByte_joined ⟨hahex, ha.1⟩ ⟨hbhex, hb.1⟩, ← heq]
        rfl
      · rw [hdata j hj (by omega), Vector.getElem_setIfInBounds_ne _ (by omega)]

/-! ### Texts -/

/-- The text in one pair of braces, or without any. -/
def Unbraced (text body : Bytes) : Prop :=
  (text.head? ≠ some 123 ∧ body = text) ∨ text = 123 :: (body ++ [125])

theorem scan_eq_some_iff {text : Bytes} {s : Scan} (hs : 16 ≤ s.index) :
    scan text = some s ↔ ∃ body, Unbraced text body ∧ body.foldlM scanStep {} = some s := by
  cases text with
  | nil =>
    refine iff_of_false (fun h => by cases h) ?_
    rintro ⟨body, ⟨-, rfl⟩ | h, hbody⟩
    · -- nothing has been read
      obtain rfl := Option.some.inj hbody
      exact absurd hs (by decide)
    · cases h
  | cons c rest =>
    unfold scan
    by_cases hc : c = 123
    · subst hc
      simp only [if_true]
      by_cases hlast : (123 :: rest).getLast? = some 125
      · have hrest : rest = rest.dropLast ++ [125] := by
          cases rest with
          | nil => simp at hlast
          | cons d rest =>
            rw [List.getLast?_cons_cons] at hlast
            exact (List.dropLast_append_getLast? 125 hlast).symm
        rw [if_neg (not_not.2 hlast)]
        constructor
        · exact fun h => ⟨rest.dropLast, .inr (congrArg _ hrest), h⟩
        · rintro ⟨body, ⟨hhead, -⟩ | heq, hbody⟩
          · exact absurd rfl hhead
          · obtain ⟨-, rfl⟩ := List.cons.inj heq
            simpa using hbody
      · rw [if_pos hlast]
        refine iff_of_false (fun h => by cases h) ?_
        rintro ⟨body, ⟨hhead, -⟩ | heq, -⟩
        · exact hhead rfl
        · rw [heq, ← List.cons_append, List.getLast?_concat] at hlast
          exact hlast rfl
    · simp only [if_neg hc]
      constructor
      · exact fun h => ⟨_, .inl ⟨fun hhead => hc (Option.some.inj hhead), rfl⟩, h⟩
      · rintro ⟨body, ⟨-, rfl⟩ | heq, hbody⟩
        · exact hbody
        · exact absurd (List.cons.inj heq).1 hc

theorem fromString_eq_some_iff_scan {text : Bytes} {id : UuidBytes} :
    fromString text = some id ↔ ∃ s, scan text = some s ∧ 16 ≤ s.index ∧ s.data = id := by
  unfold fromString
  cases scan text with
  | none => simp
  | some s => simp

theorem foldlM_toString (id : UuidBytes) :
    (toString id).foldlM scanStep {} = some ⟨true, 16, id⟩ := by
  obtain ⟨data, hdata, hfilled⟩ := foldlM_pieces id (Nat.le_refl 16)
  obtain rfl : data = id := Vector.ext fun j hj => hfilled j hj hj
  exact hdata

/-- **`from_string` reads a text exactly as the UUID whose digits it has**, whatever its letter case
and its hyphens, in braces or not, and `is_valid_uuid` accepts the same texts. -/
theorem fromString_eq_some_iff (text : Bytes) :
    (∀ id, fromString text = some id ↔
      ∃ body, Unbraced text body ∧ (digits body).map lowerCase = digits (toString id)) ∧
    isValidUuid text = (fromString text).isSome := by
  refine ⟨fun id => ?_, ?_⟩
  · rw [fromString_eq_some_iff_scan]
    constructor
    · rintro ⟨s, hscan, hs, rfl⟩
      obtain ⟨body, hbody, hfold⟩ := (scan_eq_some_iff hs).1 hscan
      refine ⟨body, hbody, ?_⟩
      rw [← foldlM_digits] at hfold
      have hlower : ∀ c ∈ (digits body).map lowerCase, lowerCase c = c ∧ c ≠ 45 := by
        intro c hc
        obtain ⟨d, hd, rfl⟩ := List.mem_map.1 hc
        obtain ⟨-, -, hhyphen, htwice⟩ := lowerCase_spec d
        have hd' : d ≠ 45 := by simpa using (List.mem_filter.1 hd).2
        exact ⟨htwice, fun h => hd' (hhyphen.1 h)⟩
      rw [digits_toString]
      exact (scan_digits hlower (Nat.zero_add 16) hfold hs).1
    · rintro ⟨body, hbody, hdigits⟩
      have htwice : (digits (toString id)).map lowerCase = digits (toString id) := by
        rw [← hdigits, List.map_map]
        exact List.map_congr_left fun c _ => (lowerCase_spec c).2.2.2
      refine ⟨⟨true, 16, id⟩, (scan_eq_some_iff (Nat.le_refl 16)).2 ⟨body, hbody, ?_⟩,
        Nat.le_refl 16, rfl⟩
      rw [← foldlM_digits, hdigits, ← htwice, foldlM_digits, foldlM_toString]
  · unfold isValidUuid fromString
    cases scan text with
    | none => rfl
    | some s =>
      show (!decide (s.index < 16)) = (if s.index < 16 then none else some s.data).isSome
      by_cases hindex : s.index < 16 <;> simp [hindex]

end Uuid

end Sidlc
