import Sidlc.Equiv.Gaps

/-!
# Where a character stands

A text read character by character is in the code, behind a `/` there, in one of the two kinds of
comments or in a string literal (`CharPlace`). This takes no tokens: a place is known from the
characters before it. The gaps and the lexemes of a text are traced back to it.
-/

namespace Sidlc

/-- Where the next character stands: `slash` is behind a `/` of the code, `star` behind a `*` in a
block comment. -/
inductive CharPlace where
  | code
  | slash
  | line
  | block
  | star
  | string
  deriving DecidableEq

namespace CharPlace

def step : CharPlace → UInt8 → CharPlace
  | code, c => if c = chr '"' then string else if c = chr '/' then slash else code
  | slash, c =>
    if c = chr '/' then line
    else if c = chr '*' then block
    else if c = chr '"' then string
    else code
  | line, c => if c = chr '\n' then code else line
  | block, c => if c = chr '*' then star else block
  | star, c => if c = chr '/' then code else if c = chr '*' then star else block
  | string, c => if c = chr '"' then code else string

/-- The place behind a text. -/
def after (p : CharPlace) (r : Bytes) : CharPlace :=
  r.foldl step p

@[simp] theorem after_nil (p : CharPlace) : p.after [] = p :=
  rfl

theorem after_cons (p : CharPlace) (c : UInt8) (r : Bytes) :
    p.after (c :: r) = (p.step c).after r :=
  rfl

theorem after_append (p : CharPlace) (w r : Bytes) : p.after (w ++ r) = (p.after w).after r := by
  rw [after, List.foldl_append]
  rfl

/-! ### Code and strings -/

theorem step_code {c : UInt8} (hquote : c ≠ chr '"') (hslash : c ≠ chr '/') :
    step code c = code := by
  rw [step, if_neg hquote, if_neg hslash]

theorem after_code {w : Bytes} (hw : ∀ c ∈ w, c ≠ chr '"' ∧ c ≠ chr '/') : after code w = code := by
  induction w with
  | nil => rfl
  | cons c w ih =>
    rw [List.forall_mem_cons] at hw
    rw [after_cons, step_code hw.1.1 hw.1.2, ih hw.2]

theorem after_string {w : Bytes} (hw : chr '"' ∉ w) : after string w = string := by
  induction w with
  | nil => rfl
  | cons c w ih =>
    rw [List.mem_cons, not_or] at hw
    rw [after_cons, step, if_neg (Ne.symm hw.1), ih hw.2]

/-- A `/` that starts no comment leaves the next character in the code. -/
theorem step_slash {c : UInt8} (hline : c ≠ chr '/') (hblock : c ≠ chr '*') :
    step slash c = step code c := by
  unfold step
  dsimp only
  rw [if_neg hline, if_neg hblock, if_neg hline]

/-! ### Comments -/

theorem after_line {w : Bytes} (hw : chr '\n' ∉ w) : after line w = line := by
  induction w with
  | nil => rfl
  | cons c w ih =>
    rw [List.mem_cons, not_or] at hw
    rw [after_cons, step, if_neg (Ne.symm hw.1), ih hw.2]

/-- A block comment goes on up to the first `*/`. -/
theorem after_block {w : Bytes} (hw : ¬ ascii "*/" <:+: w) :
    after block w = if w.getLast? = some (chr '*') then star else block := by
  induction w using List.reverseRecOn with
  | nil => rfl
  | append_singleton w c ih =>
    have hbody : ¬ ascii "*/" <:+: w := fun h => hw (h.trans (List.prefix_append w [c]).isInfix)
    rw [after_append, ih hbody, List.getLast?_concat, after_cons, after_nil]
    by_cases hlast : w.getLast? = some (chr '*')
    · have hc : c ≠ chr '/' := by
        rintro rfl
        obtain ⟨v, rfl⟩ := List.getLast?_eq_some_iff.1 hlast
        exact hw ⟨v, [], by simp [ascii, chr]⟩
      rw [if_pos hlast, step, if_neg hc]
      simp only [Option.some.injEq]
    · rw [if_neg hlast, step]
      simp only [Option.some.injEq]

theorem after_block_ne_string {w : Bytes} (hw : ¬ ascii "*/" <:+: w) : after block w ≠ string := by
  rw [after_block hw]
  split_ifs <;> decide

theorem after_blockComment {w : Bytes} (hw : ¬ ascii "*/" <:+: w) (r : Bytes) :
    after block (w ++ (ascii "*/" ++ r)) = after code r := by
  have hclose : after (after block w) (ascii "*/" ++ r) = after code r := by
    rw [after_block hw]
    split_ifs
    · rfl
    · rfl
  rw [after_append, hclose]

end CharPlace

/-! ### Gaps -/

/-- A block comment is closed at the first `*/`, or never. -/
theorem skipComment_cases (r : Bytes) :
    (∃ body, ¬ ascii "*/" <:+: body ∧ r = body ++ (ascii "*/" ++ skipComment r)) ∨
      (skipComment r = [] ∧ ¬ ascii "*/" <:+: r) := by
  induction r with
  | nil => exact .inr ⟨rfl, by decide⟩
  | cons c r ih =>
    rw [skipComment]
    -- the end of a comment in `c :: body` is at its beginning or in `body`
    have hcons (body : Bytes) (hend : ¬ (c = chr '*' ∧ body.head? = some (chr '/')))
        (hbody : ¬ ascii "*/" <:+: body) : ¬ ascii "*/" <:+: c :: body := by
      intro hinside
      rcases List.infix_cons_iff.1 hinside with ⟨s, hs⟩ | hinside
      · have hs' : chr '*' :: chr '/' :: s = c :: body := hs
        obtain ⟨rfl, rfl⟩ := List.cons.inj hs'
        exact hend ⟨rfl, rfl⟩
      · exact hbody hinside
    by_cases hend : c = chr '*' ∧ r.head? = some (chr '/')
    · rw [if_pos hend]
      obtain ⟨rfl, hhead⟩ := hend
      refine .inl ⟨[], by decide, ?_⟩
      rw [List.eq_cons_of_mem_head? hhead]
      rfl
    · rw [if_neg hend]
      rcases ih with ⟨body, hbody, hr⟩ | ⟨hnil, hr⟩
      · refine .inl ⟨c :: body, hcons body ?_ hbody, by rw [List.cons_append, ← hr]⟩
        rintro ⟨hc, hhead⟩
        refine hend ⟨hc, ?_⟩
        rw [hr, List.head?_append, hhead]
        rfl
      · exact .inr ⟨hnil, hcons r hend hr⟩

/-- A string that is open behind the text is open behind what follows its first gap. -/
theorem after_skipGap (r : Bytes) :
    CharPlace.after .code r = .string ↔ CharPlace.after .code (skipGap r) = .string := by
  induction r using skipGap.induct with
  | case1 => rw [skipGap]
  | case2 c r hblank ih =>
    have hc : c ≠ chr '"' ∧ c ≠ chr '/' := by
      revert hblank
      revert c
      decide +kernel
    rw [skipGap_blank hblank, ← ih, CharPlace.after_cons, CharPlace.step_code hc.1 hc.2]
  | case3 r hhead _ ih =>
    obtain ⟨r, rfl⟩ : ∃ s, r = chr '/' :: s := ⟨_, List.eq_cons_of_mem_head? hhead⟩
    have hstart : CharPlace.after .code (chr '/' :: chr '/' :: r) = CharPlace.after .line r := rfl
    have hdrop : (chr '/' :: r).dropWhile (· != chr '\n') = r.dropWhile (· != chr '\n') := rfl
    -- a line comment, up to the line end
    have hbody : chr '\n' ∉ r.takeWhile (· != chr '\n') := by
      intro hmem
      have := List.mem_takeWhile_imp hmem
      simp at this
    rw [skipGap_line hhead, ← ih, hstart, hdrop]
    have hline : CharPlace.after .line r = CharPlace.after .line (r.dropWhile (· != chr '\n')) := by
      conv_lhs => rw [← List.takeWhile_append_dropWhile (p := (· != chr '\n')) (l := r)]
      rw [CharPlace.after_append, CharPlace.after_line hbody]
    rw [hline]
    cases hrest : r.dropWhile (· != chr '\n') with
    | nil => decide
    | cons c s =>
      have hc : c = chr '\n' := by
        have hnot := List.head?_dropWhile_not (· != chr '\n') r
        rw [hrest] at hnot
        simpa using hnot
      rw [hc]
      rfl
  | case4 r _ hhead _ ih =>
    -- a block comment, or one that is open at the end
    obtain ⟨r, rfl⟩ : ∃ s, r = chr '*' :: s := ⟨_, List.eq_cons_of_mem_head? hhead⟩
    have hstart : CharPlace.after .code (chr '/' :: chr '*' :: r) = CharPlace.after .block r := rfl
    rw [skipGap_block hhead, ← ih, hstart, List.tail_cons]
    rcases skipComment_cases r with ⟨body, hbody, hr⟩ | ⟨hnil, hr⟩
    · conv_lhs => rw [hr, CharPlace.after_blockComment hbody]
    · rw [hnil]
      exact iff_of_false (CharPlace.after_block_ne_string hr) (by decide)
  | case5 r hline hblock _ ih =>
    have hstart : CharPlace.after .code (chr '/' :: r) = CharPlace.after .slash r := rfl
    rw [skipGap_slash hline hblock, ← ih, hstart]
    cases r with
    | nil => decide
    | cons c r =>
      have hc : c ≠ chr '/' := fun h => hline (congrArg some h)
      have hc' : c ≠ chr '*' := fun h => hblock (congrArg some h)
      rw [CharPlace.after_cons, CharPlace.step_slash hc hc', CharPlace.after_cons]
  | case6 c r hblank hslash => rw [skipGap_stop hblank hslash]

/-- Behind a gap stands no blank and no `/`. -/
theorem skipGap_head {r r' : Bytes} {c : UInt8} (h : skipGap r = c :: r') :
    ¬ (isSpace c = true ∨ c = chr '\n') ∧ c ≠ chr '/' := by
  induction r using skipGap.induct with
  | case1 =>
    rw [skipGap] at h
    cases h
  | case2 d r hblank ih => exact ih (skipGap_blank hblank r ▸ h)
  | case3 r hhead _ ih => exact ih (skipGap_line hhead ▸ h)
  | case4 r _ hhead _ ih => exact ih (skipGap_block hhead ▸ h)
  | case5 r hline hblock _ ih => exact ih (skipGap_slash hline hblock ▸ h)
  | case6 d r hblank hslash =>
    rw [skipGap_stop hblank hslash] at h
    obtain ⟨rfl, -⟩ := List.cons.inj h
    exact ⟨hblank, hslash⟩

/-! ### Lexemes -/

/-- A lexeme that is no string is made of characters that open nothing. -/
theorem scan_plain {c : UInt8} (hquote : c ≠ chr '"') (hslash : c ≠ chr '/') (r : Bytes) :
    ∃ w, c :: r = w ++ (scan c r).2 ∧ ∀ d ∈ w, d ≠ chr '"' ∧ d ≠ chr '/' := by
  have hspan {p : UInt8 → Bool} (hp : ∀ d, p d = true → d ≠ chr '"' ∧ d ≠ chr '/') (s : Bytes) :
      ∃ w, s = w ++ s.dropWhile p ∧ ∀ d ∈ w, d ≠ chr '"' ∧ d ≠ chr '/' :=
    ⟨s.takeWhile p, List.takeWhile_append_dropWhile.symm,
      fun d hd => hp d (List.mem_takeWhile_imp hd)⟩
  have hword : ∀ d, Lexer.isWordChar d = true → d ≠ chr '"' ∧ d ≠ chr '/' := by decide +kernel
  have hxdigit : ∀ d, isXdigit d = true → d ≠ chr '"' ∧ d ≠ chr '/' := by decide +kernel
  have hdigit : ∀ d, isDigit d = true → d ≠ chr '"' ∧ d ≠ chr '/' := by decide +kernel
  have hbinary : ∀ d, (d == chr '0' || d == chr '1') = true → d ≠ chr '"' ∧ d ≠ chr '/' := by
    decide +kernel
  have hcons {s s' : Bytes} {d : UInt8} (hd : d ≠ chr '"' ∧ d ≠ chr '/')
      (h : ∃ w, s = w ++ s' ∧ ∀ d ∈ w, d ≠ chr '"' ∧ d ≠ chr '/') :
      ∃ w, d :: s = w ++ s' ∧ ∀ d ∈ w, d ≠ chr '"' ∧ d ≠ chr '/' := by
    obtain ⟨w, rfl, hw⟩ := h
    exact ⟨d :: w, rfl, List.forall_mem_cons.2 ⟨hd, hw⟩⟩
  have hnone (s : Bytes) : ∃ w, s = w ++ s ∧ ∀ d ∈ w, d ≠ chr '"' ∧ d ≠ chr '/' :=
    ⟨[], rfl, List.forall_mem_nil _⟩
  -- the characters of a token without quotes are of one class
  unfold scan
  split_ifs with h₁ h₂ h₃
  · exact hspan hword (c :: r)
  · cases r with
    | nil => exact hcons ⟨hquote, hslash⟩ (hnone [])
    | cons d r =>
      dsimp only
      split_ifs with hx hb hd
      · refine hcons ⟨hquote, hslash⟩ (hcons ?_ (hspan hxdigit r))
        rcases hx with rfl | rfl
        · decide
        · decide
      · refine hcons ⟨hquote, hslash⟩ (hcons ?_ (hspan hbinary r))
        rcases hb with rfl | rfl
        · decide
        · decide
      · exact hcons ⟨hquote, hslash⟩ (hspan hdigit (d :: r))
      · exact hcons ⟨hquote, hslash⟩ (hnone (d :: r))
  · exact hspan hdigit (c :: r)
  · exact hcons ⟨hquote, hslash⟩ (hnone r)
  · exact hcons ⟨hquote, hslash⟩ (hnone r)

/-- A lexeme is a string that the end of the text leaves open, or it ends in the code. -/
theorem after_scan {c : UInt8} (hslash : c ≠ chr '/') (r : Bytes)
    (hclosed : c = chr '"' → chr '"' ∈ r) :
    CharPlace.after .code (c :: r) = CharPlace.after .code (scan c r).2 := by
  by_cases hquote : c = chr '"'
  · obtain ⟨body, rest, rfl, hbody⟩ := List.eq_append_cons_of_mem (hclosed hquote)
    have hscan : (scan c (body ++ chr '"' :: rest)).2 = rest := by
      rw [hquote, scan_string fun _ hd => ne_of_mem_of_not_mem hd hbody]
    rw [hscan, hquote]
    show CharPlace.after .string (body ++ chr '"' :: rest) = _
    rw [CharPlace.after_append, CharPlace.after_string hbody]
    rfl
  · obtain ⟨w, hw, hplain⟩ := scan_plain hquote hslash r
    conv_lhs => rw [hw]
    rw [CharPlace.after_append, CharPlace.after_code hplain]

end Sidlc
