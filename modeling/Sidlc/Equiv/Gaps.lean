import Sidlc.Equiv.Printed

/-!
# Gaps between tokens

A gap is a text that the lexer skips: some blanks, a complete block comment or a line comment with
its newline. Put directly behind a token it changes no token before it, and none behind it unless
the token is a string that the end of the text leaves open (`lexemes_insertGap`).
-/

namespace Sidlc

/-! ### Steps of the skipping loop -/

theorem skipGap_blank {c : UInt8} (h : isSpace c = true ∨ c = chr '\n') (r : Bytes) :
    skipGap (c :: r) = skipGap r := by
  rw [skipGap, if_pos h]

theorem skipGap_line {r : Bytes} (h : r.head? = some (chr '/')) :
    skipGap (chr '/' :: r) = skipGap (r.dropWhile (· != chr '\n')) := by
  rw [skipGap, if_neg (by decide), if_pos rfl, if_pos h]

theorem skipGap_block {r : Bytes} (h : r.head? = some (chr '*')) :
    skipGap (chr '/' :: r) = skipGap (skipComment r.tail) := by
  rw [skipGap, if_neg (by decide), if_pos rfl, if_neg (by rw [h]; decide), if_pos h]

/-- A `/` that starts no comment is skipped like a blank. -/
theorem skipGap_slash {r : Bytes} (hline : r.head? ≠ some (chr '/'))
    (hblock : r.head? ≠ some (chr '*')) : skipGap (chr '/' :: r) = skipGap r := by
  rw [skipGap, if_neg (by decide), if_pos rfl, if_neg hline, if_neg hblock]

theorem skipGap_stop {c : UInt8} (hblank : ¬ (isSpace c = true ∨ c = chr '\n'))
    (hslash : c ≠ chr '/') (r : Bytes) : skipGap (c :: r) = c :: r := by
  rw [skipGap, if_neg hblank, if_neg hslash]

/-! ### Gaps -/

/-- A text that is skipped as a whole. -/
inductive IsGap : Bytes → Prop
  | blanks {w : Bytes} (hne : w ≠ []) (hw : ∀ c ∈ w, isSpace c = true) : IsGap w
  | blockComment {body : Bytes} (h : ¬ ascii "*/" <:+: body) :
      IsGap (ascii "/*" ++ (body ++ ascii "*/"))
  | lineComment {body : Bytes} (h : chr '\n' ∉ body) :
      IsGap (ascii "//" ++ (body ++ [chr '\n']))

/-- What a gap begins with. -/
def StartsGap (c : UInt8) : Prop :=
  isSpace c = true ∨ c = chr '/'

theorem IsGap.head {gap : Bytes} (h : IsGap gap) : ∃ c cs, gap = c :: cs ∧ StartsGap c := by
  cases h with
  | blanks hne hw =>
    obtain ⟨c, cs, rfl⟩ := List.exists_cons_of_ne_nil hne
    exact ⟨c, cs, rfl, .inl (hw c List.mem_cons_self)⟩
  | blockComment => exact ⟨chr '/', _, rfl, .inr rfl⟩
  | lineComment => exact ⟨chr '/', _, rfl, .inr rfl⟩

/-- The end of a comment is the first one. -/
theorem skipComment_append {body : Bytes} (h : ¬ ascii "*/" <:+: body) (r : Bytes) :
    skipComment (body ++ (ascii "*/" ++ r)) = r := by
  induction body with
  | nil =>
    show skipComment (chr '*' :: chr '/' :: r) = r
    rw [skipComment, if_pos ⟨rfl, rfl⟩, List.tail_cons]
  | cons c body ih =>
    have hnext : ¬ (c = chr '*' ∧ (body ++ (ascii "*/" ++ r)).head? = some (chr '/')) := by
      rintro ⟨rfl, hhead⟩
      cases body with
      | nil => exact absurd (Option.some.inj hhead) (by decide)
      | cons d body =>
        obtain rfl : d = chr '/' := Option.some.inj hhead
        exact h ⟨[], body, rfl⟩
    have hbody : ¬ ascii "*/" <:+: body :=
      fun hclosed => h (hclosed.trans (List.suffix_cons c body).isInfix)
    rw [List.cons_append, skipComment, if_neg hnext, ih hbody]

theorem skipGap_blanks {w : Bytes} (h : ∀ c ∈ w, isSpace c = true) (r : Bytes) :
    skipGap (w ++ r) = skipGap r := by
  induction w with
  | nil => rfl
  | cons c w ih =>
    rw [List.forall_mem_cons] at h
    rw [List.cons_append, skipGap_blank (.inl h.1), ih h.2]

theorem skipGap_append {gap : Bytes} (h : IsGap gap) (r : Bytes) :
    skipGap (gap ++ r) = skipGap r := by
  cases h with
  | blanks _ hw => exact skipGap_blanks hw r
  | @blockComment body h =>
    show skipGap (chr '/' :: chr '*' :: (body ++ ascii "*/" ++ r)) = _
    rw [skipGap_block rfl, List.tail_cons, List.append_assoc, skipComment_append h]
  | @lineComment body h =>
    show skipGap (chr '/' :: chr '/' :: (body ++ [chr '\n'] ++ r)) = _
    have hbody : chr '\n' ∉ chr '/' :: body := by
      rw [List.mem_cons, not_or]
      exact ⟨by decide, h⟩
    have hdrop : (chr '/' :: (body ++ [chr '\n'] ++ r)).dropWhile (· != chr '\n')
        = chr '\n' :: r := by
      rw [List.append_assoc, ← List.cons_append]
      exact dropWhile_ne_append hbody r
    rw [skipGap_line rfl, hdrop, skipGap_blank (.inr rfl)]

/-! ### What is skipped before a token -/

/-- Whatever follows a comment, it ends at the same place. -/
theorem skipComment_spec {r s : Bytes} (h : skipComment r = s) (hs : s ≠ []) :
    ∃ w, w ≠ [] ∧ r = w ++ s ∧ ∀ s', skipComment (w ++ s') = s' := by
  induction r with
  | nil => exact absurd h.symm hs
  | cons c r ih =>
    rw [skipComment] at h
    split_ifs at h with hend
    · obtain ⟨rfl, hhead⟩ := hend
      cases r with
      | nil => exact absurd hhead (by simp)
      | cons d r =>
        obtain rfl : d = chr '/' := Option.some.inj hhead
        obtain rfl : r = s := h
        refine ⟨[chr '*', chr '/'], List.cons_ne_nil _ _, rfl, fun s' => ?_⟩
        show skipComment (chr '*' :: chr '/' :: s') = s'
        rw [skipComment, if_pos ⟨rfl, rfl⟩, List.tail_cons]
    · obtain ⟨w, hw, rfl, hskip⟩ := ih h
      obtain ⟨d, w, rfl⟩ := List.exists_cons_of_ne_nil hw
      refine ⟨c :: d :: w, List.cons_ne_nil _ _, rfl, fun s' => ?_⟩
      have hend' : ¬ (c = chr '*' ∧ (d :: w ++ s').head? = some (chr '/')) := hend
      rw [List.cons_append, skipComment, if_neg hend', hskip]

theorem head?_append_cons {α : Type} (xs : List α) (c : α) (r s : List α) :
    (xs ++ c :: r).head? = (xs ++ c :: s).head? := by
  cases xs <;> rfl

/-- What is skipped before a token depends on the first character of the token only. -/
theorem skipGap_spec {r r' : Bytes} {c : UInt8} (h : skipGap r = c :: r') :
    ∃ g, r = g ++ c :: r' ∧ ∀ s, skipGap (g ++ c :: s) = c :: s := by
  induction r using skipGap.induct with
  | case1 =>
    rw [skipGap] at h
    cases h
  | case2 d r hblank ih =>
    rw [skipGap_blank hblank] at h
    obtain ⟨g, rfl, hg⟩ := ih h
    exact ⟨d :: g, rfl, fun s => (skipGap_blank hblank _).trans (hg s)⟩
  | case3 r hhead _ ih =>
    rw [skipGap_line hhead] at h
    obtain ⟨g, hdrop, hg⟩ := ih h
    have hsplit : r = r.takeWhile (· != chr '\n') ++ (g ++ c :: r') := by
      rw [← hdrop, List.takeWhile_append_dropWhile]
    refine ⟨chr '/' :: (r.takeWhile (· != chr '\n') ++ g), ?_, fun s => ?_⟩
    · rw [List.cons_append, List.append_assoc, ← hsplit]
    · have hhead' : (r.takeWhile (· != chr '\n') ++ g ++ c :: s).head? = some (chr '/') := by
        rw [head?_append_cons _ c s r', List.append_assoc, ← hsplit, hhead]
      -- the rest begins with the line end that closes the comment
      have hstop : ∀ d ∈ (g ++ c :: s).head?, (d != chr '\n') = false := by
        intro d hd
        have hnot := List.head?_dropWhile_not (· != chr '\n') r
        rw [hdrop, head?_append_cons g c r' s, hd] at hnot
        simpa using hnot
      rw [List.cons_append, skipGap_line hhead', List.append_assoc,
        dropWhile_append_of_stop (fun d hd => List.mem_takeWhile_imp hd) hstop, hg]
  | case4 r _ hhead _ ih =>
    rw [skipGap_block hhead] at h
    obtain ⟨g, hcomment, hg⟩ := ih h
    obtain ⟨w, -, hw, hskip⟩ := skipComment_spec hcomment (by simp)
    have hr : r = chr '*' :: (w ++ (g ++ c :: r')) := by
      rw [← hw]
      exact List.eq_cons_of_mem_head? hhead
    refine ⟨chr '/' :: chr '*' :: (w ++ g), ?_, fun s => ?_⟩
    · rw [hr, List.cons_append, List.cons_append, List.append_assoc]
    · rw [List.cons_append, List.cons_append, skipGap_block rfl, List.tail_cons, List.append_assoc,
        hskip, hg]
  | case5 r hline hblock _ ih =>
    rw [skipGap_slash hline hblock] at h
    obtain ⟨g, rfl, hg⟩ := ih h
    refine ⟨chr '/' :: g, rfl, fun s => ?_⟩
    rw [head?_append_cons g c r' s] at hline hblock
    rw [List.cons_append, skipGap_slash hline hblock, hg]
  | case6 d r hblank hslash =>
    rw [skipGap_stop hblank hslash] at h
    obtain ⟨rfl, rfl⟩ := List.cons.inj h
    exact ⟨[], rfl, fun s => skipGap_stop hblank hslash s⟩

/-! ### Where a token ends -/

theorem startsGap_spec : ∀ c : UInt8, isSpace c = true ∨ c = chr '/' →
    Lexer.isWordChar c = false := by
  decide +kernel

theorem notWordChar_digits : ∀ c : UInt8, Lexer.isWordChar c = false →
    isXdigit c = false ∧ (c == chr '0' || c == chr '1') = false := by
  decide +kernel

/-- The text `s` begins like `r`, or with a gap. -/
def BeginsLike (s r : Bytes) : Prop :=
  s.head? = r.head? ∨ ∃ c ∈ s.head?, StartsGap c

/-- A span of characters ends at the same place before a text that begins like the one behind it. -/
theorem span_spec {p : UInt8 → Bool} (hp : ∀ c, Lexer.isWordChar c = false → p c = false)
    {r s : Bytes} (hs : BeginsLike s (r.dropWhile p)) :
    (r.takeWhile p ++ s).takeWhile p = r.takeWhile p ∧ (r.takeWhile p ++ s).dropWhile p = s := by
  have hstop : ∀ c ∈ s.head?, p c = false := by
    intro c hc
    rcases hs with hs | ⟨d, hd, hgap⟩
    · have hnot := List.head?_dropWhile_not p r
      rw [← hs, hc] at hnot
      simpa using hnot
    · obtain rfl : c = d := Option.some.inj (hc.symm.trans hd)
      exact hp c (startsGap_spec c hgap)
  have hw : ∀ c ∈ r.takeWhile p, p c = true := fun c hc => List.mem_takeWhile_imp hc
  exact ⟨takeWhile_append_of_stop hw hstop, dropWhile_append_of_stop hw hstop⟩

theorem isXdigit_of_not {c : UInt8} (h : Lexer.isWordChar c = false) : isXdigit c = false :=
  (notWordChar_digits c h).1

theorem isBinary_of_not {c : UInt8} (h : Lexer.isWordChar c = false) :
    (c == chr '0' || c == chr '1') = false :=
  (notWordChar_digits c h).2

theorem isDigit_of_not {c : UInt8} (h : Lexer.isWordChar c = false) : isDigit c = false :=
  (notWordChar_spec c h).1

/-- The token `t`, which leaves `r`, is no string that the end of the text leaves open. -/
def Ends (t : Lexeme) (r : Bytes) : Prop :=
  t.1 = .string → r ≠ []

/-- A text behind the token `t` that leaves `r` to which the token does not extend. -/
def Separates (t : Lexeme) (r s : Bytes) : Prop :=
  s.head? = r.head? ∨ Ends t r ∧ ∃ c ∈ s.head?, StartsGap c

theorem Separates.beginsLike {t : Lexeme} {r s : Bytes} (h : Separates t r s) : BeginsLike s r :=
  h.imp_right And.right

/-- A string is closed, or nothing follows it. -/
theorem scan_spec_string (r : Bytes) :
    ∃ w, r = w ++ (scan (chr '"') r).2 ∧
      ∀ s, Separates (scan (chr '"') r).1 (scan (chr '"') r).2 s →
        scan (chr '"') (w ++ s) = ((scan (chr '"') r).1, s) := by
  by_cases hquote : chr '"' ∈ r
  · obtain ⟨body, rest, rfl, hbody⟩ := List.eq_append_cons_of_mem hquote
    have hbody' : ∀ c ∈ body, c ≠ chr '"' := fun _ hc => ne_of_mem_of_not_mem hc hbody
    rw [scan_string hbody']
    refine ⟨body ++ [chr '"'], by simp, fun s _ => ?_⟩
    rw [List.append_assoc, List.singleton_append, scan_string hbody']
  · have hrest := dropWhile_ne_of_notMem hquote
    have hscan : scan (chr '"') r = ((.string, (chr '"' :: r).take
        ((r.takeWhile (· != chr '"')).length + 2)), []) := by
      unfold scan
      rw [if_neg (by decide), if_neg (by decide), if_neg (by decide), if_pos rfl, hrest]
      rfl
    rw [hscan]
    refine ⟨r, (List.append_nil r).symm, fun s hs => ?_⟩
    -- only the end of the text leaves the string open
    obtain rfl : s = [] := by
      rcases hs with hs | ⟨hends, -⟩
      · exact List.head?_eq_none_iff.1 hs
      · exact absurd rfl (hends rfl)
    rw [List.append_nil, hscan]

/-- Behind `0`, what a gap begins with does not go on with the number. -/
theorem StartsGap.not_number {c : UInt8} (h : StartsGap c) :
    ¬ (c = chr 'x' ∨ c = chr 'X') ∧ ¬ (c = chr 'b' ∨ c = chr 'B') ∧ ¬ isDigit c = true := by
  obtain ⟨hdigit, hx, hX, hb, hB⟩ := notWordChar_spec c (startsGap_spec c h)
  simp [hx, hX, hb, hB, hdigit]

theorem scanNumber_spec {p : UInt8 → Bool} (hp : ∀ c, Lexer.isWordChar c = false → p c = false)
    {r s : Bytes} (hs : BeginsLike s (r.dropWhile p)) :
    scanNumber p (r.takeWhile p ++ s) = ((.number, r.takeWhile p), s) := by
  obtain ⟨htake, hdrop⟩ := span_spec hp hs
  rw [scanNumber, htake, hdrop]

/-- Behind `0`, the next character decides in which base the number goes on, if at all. -/
theorem scan_spec_zero (r : Bytes) :
    ∃ w, r = w ++ (scan (chr '0') r).2 ∧
      ∀ s, Separates (scan (chr '0') r).1 (scan (chr '0') r).2 s →
        scan (chr '0') (w ++ s) = ((scan (chr '0') r).1, s) := by
  have hspan (p : UInt8 → Bool) (r : Bytes) :=
    (List.takeWhile_append_dropWhile (p := p) (l := r)).symm
  have hword : ¬ (isAlpha (chr '0') ∨ chr '0' = chr '_') := by decide
  unfold scan
  simp only [if_neg hword, if_true]
  cases r with
  | nil =>
    refine ⟨[], rfl, fun s hs => ?_⟩
    cases s with
    | nil => rfl
    | cons d s =>
      rcases hs with hs | ⟨-, e, he, hgap⟩
      · cases hs
      · obtain rfl : d = e := Option.some.inj he
        obtain ⟨hx, hb, hd⟩ := hgap.not_number
        simp only [List.nil_append, if_neg hx, if_neg hb, if_neg hd]
  | cons d r =>
    dsimp only
    split_ifs with hx hb hd
    · refine ⟨d :: r.takeWhile isXdigit, ?_, fun s hs => ?_⟩
      · rw [List.cons_append, scanNumber, ← hspan]
      · simp only [List.cons_append, if_pos hx]
        exact scanNumber_spec (fun _ => isXdigit_of_not) hs.beginsLike
    · refine ⟨d :: r.takeWhile (fun e => e == chr '0' || e == chr '1'), ?_, fun s hs => ?_⟩
      · rw [List.cons_append, scanNumber, ← hspan]
      · simp only [List.cons_append, if_neg hx, if_pos hb]
        exact scanNumber_spec (fun _ => isBinary_of_not) hs.beginsLike
    · have htake : (d :: r).takeWhile isDigit = d :: r.takeWhile isDigit := by
        rw [List.takeWhile_cons, if_pos hd]
      refine ⟨(d :: r).takeWhile isDigit, hspan isDigit (d :: r), fun s hs => ?_⟩
      have hscan := scanNumber_spec (fun _ => isDigit_of_not) hs.beginsLike
      rw [htake, List.cons_append] at hscan ⊢
      simp only [if_neg hx, if_neg hb, if_pos hd]
      rw [hscan, scanNumber, htake]
    · -- the `0` is a token by itself
      refine ⟨[], rfl, fun s hs => ?_⟩
      cases s with
      | nil => rfl
      | cons e s =>
        have he : ¬ (e = chr 'x' ∨ e = chr 'X') ∧ ¬ (e = chr 'b' ∨ e = chr 'B') ∧
            ¬ isDigit e = true := by
          rcases hs with hs | ⟨-, f, hf, hgap⟩
          · obtain rfl : e = d := Option.some.inj hs
            exact ⟨hx, hb, hd⟩
          · obtain rfl : e = f := Option.some.inj hf
            exact hgap.not_number
        simp only [List.nil_append, if_neg he.1, if_neg he.2.1, if_neg he.2.2]

/-- A token ends at the same place before a text that begins like the one behind it. -/
theorem scan_spec (c : UInt8) (r : Bytes) :
    ∃ w, r = w ++ (scan c r).2 ∧ ∀ s, Separates (scan c r).1 (scan c r).2 s →
      scan c (w ++ s) = ((scan c r).1, s) := by
  have hspan (p : UInt8 → Bool) (r : Bytes) :=
    (List.takeWhile_append_dropWhile (p := p) (l := r)).symm
  by_cases hquote : c = chr '"'
  · subst hquote
    exact scan_spec_string r
  by_cases hzero : c = chr '0'
  · subst hzero
    exact scan_spec_zero r
  unfold scan
  split_ifs with hword hdigit
  · have hc : Lexer.isWordChar c = true := by
      rcases hword with h | h <;> simp [Lexer.isWordChar, isAlnum, h]
    simp only [List.takeWhile_cons, List.dropWhile_cons, hc, if_true]
    refine ⟨_, hspan Lexer.isWordChar r, fun s hs => ?_⟩
    obtain ⟨htake, hdrop⟩ := span_spec (fun _ h => h) hs.beginsLike
    rw [htake, hdrop]
  · simp only [scanNumber, List.takeWhile_cons, List.dropWhile_cons, hdigit, if_true]
    refine ⟨_, hspan isDigit r, fun s hs => ?_⟩
    obtain ⟨htake, hdrop⟩ := span_spec (fun _ => isDigit_of_not) hs.beginsLike
    rw [htake, hdrop]
  -- an operator and an unknown character are one character long
  all_goals exact ⟨[], rfl, fun s _ => rfl⟩

/-! ### Gaps behind tokens -/

/-- What is left of a text after one or more tokens. -/
inductive AfterToken : Bytes → Bytes → Prop
  | first {r r' : Bytes} {c : UInt8} (h : skipGap r = c :: r') : AfterToken r (scan c r').2
  | next {r r' s : Bytes} {c : UInt8} (h : skipGap r = c :: r') (hs : AfterToken (scan c r').2 s) :
      AfterToken r s

/-- **A gap directly behind a token** changes no token before it, and none behind it either, unless
the token is a string at the end of the text. -/
theorem lexemes_insertGap {r s gap : Bytes} (h : AfterToken r s) (hgap : IsGap gap) :
    ∃ p ts t us, p ≠ [] ∧ r = p ++ s ∧ lexemes r = ts ++ t :: lexemes s ∧
      lexemes (p ++ (gap ++ s)) = ts ++ us ∧ (Ends t s → us = t :: lexemes s) := by
  induction h with
  | @first r r' c h =>
    obtain ⟨g, rfl, hg⟩ := skipGap_spec h
    obtain ⟨w, hw, hscan⟩ := scan_spec c r'
    refine ⟨g ++ c :: w, [], (scan c r').1, _, by simp, ?_, lexemes_of_gap_cons h, rfl,
      fun hends => ?_⟩
    · rw [List.append_assoc, List.cons_append, ← hw]
    · obtain ⟨d, ds, rfl, hd⟩ := hgap.head
      have htoken := hscan (d :: ds ++ (scan c r').2) (.inr ⟨hends, d, rfl, hd⟩)
      rw [List.append_assoc, List.cons_append, lexemes_of_gap_cons (hg _), htoken]
      exact congrArg _ (lexemes_eq_of_gap (skipGap_append hgap _))
  | @next r r' s c h _ ih =>
    obtain ⟨p, ts, t, us, hp, hrest, hlexemes, hnew, hends⟩ := ih
    obtain ⟨g, rfl, hg⟩ := skipGap_spec h
    obtain ⟨w, hw, hscan⟩ := scan_spec c r'
    obtain ⟨d, ds, rfl⟩ := List.exists_cons_of_ne_nil hp
    -- the text behind the first token still begins with the same character
    have htoken := hscan (d :: ds ++ (gap ++ s)) (.inl (by rw [hrest]; rfl))
    refine ⟨g ++ c :: (w ++ d :: ds), (scan c r').1 :: ts, t, us, by simp, ?_, ?_, ?_, hends⟩
    · rw [List.append_assoc, List.cons_append, List.append_assoc, ← hrest, ← hw]
    · rw [lexemes_of_gap_cons h, hlexemes, List.cons_append]
    · rw [List.append_assoc, List.cons_append, List.append_assoc, lexemes_of_gap_cons (hg _),
        htoken, hnew]
      rfl

end Sidlc
