import Sidlc.Equiv.Parser
import Sidlc.Equiv.Places

/-!
# What lies between the lexemes

The text of a token is a view of the source, so it has a place there (`Lexer.textStart`). Outside of
these views the source holds blanks and complete comments only, if and only if no character is
dropped in another way: as a `/` that opens no comment, as an open block comment or as the first
characters of a number (`covered_iff`).
-/

namespace Sidlc

/-! ### The places of the tokens -/

/-- What makes a `0` in front of it the mark of a base. -/
def MarksBase (c : UInt8) : Prop :=
  c = chr 'x' ∨ c = chr 'X' ∨ c = chr 'b' ∨ c = chr 'B' ∨ isDigit c = true

instance (c : UInt8) : Decidable (MarksBase c) :=
  inferInstanceAs (Decidable (_ ∨ _))

namespace Lexer

/-- Where the `text` of the next token begins: the first argument of the `source.substr` that it
comes from. -/
def textStart (l : Lexer) : Nat :=
  let l := l.skipUnmeaningfulString
  if l.peek = some (chr '0') then
    let l := l.advance
    match l.peek with
    | none => l.pos - 1
    | some d =>
      if d = chr 'x' ∨ d = chr 'X' then l.advance.pos
      else if d = chr 'b' ∨ d = chr 'B' then l.advance.pos
      else if isDigit d then l.pos
      else l.pos - 1
  else l.pos

/-- The tokens up to the end of the file, at most `n` of them: where their texts begin, and the
texts. -/
def views : Nat → Lexer → List (Nat × Bytes)
  | 0, _ => []
  | n + 1, l =>
    let (token, l') := l.nextToken
    if token.type = .endOfFile then [] else (l.textStart, token.text) :: views n l'

end Lexer

/-- Any number of gaps in a row. -/
def AreGaps (w : Bytes) : Prop :=
  ∃ gaps : List Bytes, (∀ gap ∈ gaps, IsGap gap) ∧ w = gaps.flatten

/-- Gaps up to the end of the text, where a line comment may end without a newline. -/
def AreLastGaps (w : Bytes) : Prop :=
  AreGaps w ∨ ∃ gaps body, AreGaps gaps ∧ chr '\n' ∉ body ∧ w = gaps ++ (ascii "//" ++ body)

/-- From the position on, the source consists of the views and of gaps between them. -/
def CoveredFrom (source : Bytes) : Nat → List (Nat × Bytes) → Prop
  | pos, [] => AreLastGaps (source.drop pos)
  | pos, (start, text) :: views =>
    pos ≤ start ∧ AreGaps ((source.drop pos).take (start - pos)) ∧
      CoveredFrom source (start + text.length) views

/-- The characters outside of the tokens of the source are blanks and complete comments. -/
def Covered (source : Bytes) : Prop :=
  CoveredFrom source 0 (Lexer.views (source.length + 1) { source })

/-! ### Characters that are dropped -/

/-- What the character before was to a number: nothing, a character of a word or number, or a `0`
that begins one. -/
inductive Before where
  | other
  | word
  | zero
  deriving DecidableEq

/-- How far a text has been read. -/
structure Reading where
  place : CharPlace
  before : Before
  deriving DecidableEq

namespace Reading

def step (s : Reading) (c : UInt8) : Reading where
  place := s.place.step c
  before :=
    if s.place = .code ∧ s.before = .other ∧ c = chr '0' then .zero
    else if Lexer.isWordChar c then .word
    else .other

/-- The next character is no reason to drop the one before it: a `/` opens a comment, and a `0` is
no mark of a base. -/
def Allows (s : Reading) (c : UInt8) : Prop :=
  (s.place = .slash → c = chr '/' ∨ c = chr '*') ∧
    ¬ (s.place = .code ∧ s.before = .zero ∧ MarksBase c)

/-- No character is dropped from here on, and no `/` and no block comment is open at the end. -/
def Keeps : Reading → Bytes → Prop
  | s, [] => s.place = .code ∨ s.place = .line ∨ s.place = .string
  | s, c :: r => s.Allows c ∧ Keeps (s.step c) r

/-- Where a text begins. -/
def start : Reading :=
  ⟨.code, .other⟩

instance (s : Reading) (c : UInt8) : Decidable (s.Allows c) :=
  inferInstanceAs (Decidable (_ ∧ _))

instance decidableKeeps : ∀ (s : Reading) (r : Bytes), Decidable (s.Keeps r)
  | _, [] => inferInstanceAs (Decidable (_ ∨ _))
  | s, c :: r =>
    have := decidableKeeps (s.step c) r
    inferInstanceAs (Decidable (_ ∧ _))

/-- The reading behind a text. -/
def after (s : Reading) (r : Bytes) : Reading :=
  r.foldl step s

theorem after_cons (s : Reading) (c : UInt8) (r : Bytes) : s.after (c :: r) = (s.step c).after r :=
  rfl

theorem place_after (s : Reading) (r : Bytes) : (s.after r).place = s.place.after r := by
  induction r generalizing s with
  | nil => rfl
  | cons c r ih => exact ih (s.step c)

/-- Every character of the text is allowed. -/
def AllowsAll : Reading → Bytes → Prop
  | _, [] => True
  | s, c :: r => s.Allows c ∧ AllowsAll (s.step c) r

theorem keeps_append {s : Reading} {w : Bytes} (hw : s.AllowsAll w) (r : Bytes) :
    s.Keeps (w ++ r) ↔ (s.after w).Keeps r := by
  induction w generalizing s with
  | nil => rfl
  | cons c w ih =>
    rw [List.cons_append, Keeps, after_cons, ← ih hw.2, and_iff_right hw.1]

theorem Keeps.place {s : Reading} {r : Bytes} (h : s.Keeps r) :
    s.place.after r = .code ∨ s.place.after r = .line ∨ s.place.after r = .string := by
  induction r generalizing s with
  | nil => exact h
  | cons c r ih => exact ih h.2

/-- Outside of the code every character is allowed. -/
theorem allowsAll_of_outside {s : Reading} {w : Bytes}
    (h : ∀ v t, w = v ++ t → s.place.after v ≠ .code ∧ s.place.after v ≠ .slash) :
    s.AllowsAll w := by
  induction w generalizing s with
  | nil => trivial
  | cons c w ih =>
    obtain ⟨hcode, hslash⟩ := h [] (c :: w) rfl
    have hallows : s.Allows c := ⟨fun hs => absurd hs hslash, fun hs => hcode hs.1⟩
    refine ⟨hallows, ih fun v t hw => ?_⟩
    exact h (c :: v) t (by rw [hw, List.cons_append])

/-- A comment or a string, up to the character that closes it. -/
theorem keeps_close {s : Reading} {w : Bytes} {c : UInt8}
    (hw : ∀ v t, w = v ++ t → s.place.after v ≠ .code ∧ s.place.after v ≠ .slash)
    (hc : Lexer.isWordChar c = false) (hclose : (s.place.after w).step c = .code) (r : Bytes) :
    s.Keeps (w ++ c :: r) ↔ start.Keeps r := by
  obtain ⟨hcode, hslash⟩ := hw w [] (List.append_nil w).symm
  rw [← s.place_after] at hcode hslash hclose
  have hstep : (s.after w).step c = start := by
    have hbefore : ¬ ((s.after w).place = .code ∧ (s.after w).before = .other ∧ c = chr '0') :=
      fun h => hcode h.1
    rw [step, hclose, if_neg hbefore, if_neg (by simp [hc])]
    rfl
  have hallows : (s.after w).Allows c := ⟨fun h => absurd h hslash, fun h => hcode h.1⟩
  rw [keeps_append (allowsAll_of_outside hw), Keeps, hstep, and_iff_right hallows]

/-- A comment or a string that nothing closes. -/
theorem keeps_open {s : Reading} {w : Bytes}
    (hw : ∀ v t, w = v ++ t → s.place.after v ≠ .code ∧ s.place.after v ≠ .slash)
    (hend : s.place.after w = .line ∨ s.place.after w = .string) : s.Keeps w := by
  have hkeeps := keeps_append (allowsAll_of_outside hw) []
  rw [List.append_nil] at hkeeps
  rw [hkeeps]
  show Reading.place _ = _ ∨ Reading.place _ = _ ∨ Reading.place _ = _
  rw [place_after]
  exact .inr hend

/-! ### Gaps keep everything -/

/-- A character that is a token of its own, or a blank. -/
theorem keeps_cons {c : UInt8} (hc : Lexer.isWordChar c = false) (hquote : c ≠ chr '"')
    (hslash : c ≠ chr '/') (r : Bytes) : start.Keeps (c :: r) ↔ start.Keeps r := by
  have hzero : c ≠ chr '0' := by
    rintro rfl
    exact absurd hc (by decide)
  have hstep : start.step c = start := by
    have hplace : CharPlace.step start.place c = .code := CharPlace.step_code hquote hslash
    have hbefore : ¬ (start.place = .code ∧ start.before = .other ∧ c = chr '0') :=
      fun h => hzero h.2.2
    rw [step, hplace, if_neg hbefore, if_neg (by simp [hc])]
    rfl
  have hallows : start.Allows c :=
    ⟨fun h => absurd h (by decide), fun h => absurd h.2.1 (by decide)⟩
  rw [Keeps, hstep, and_iff_right hallows]

theorem keeps_lineComment {body : Bytes} (h : chr '\n' ∉ body) (r : Bytes) :
    start.Keeps (ascii "//" ++ (body ++ chr '\n' :: r)) ↔ start.Keeps r := by
  have hopen : start.AllowsAll (ascii "//") := ⟨by decide, by decide, trivial⟩
  have hplace : (start.after (ascii "//")).place = .line := rfl
  rw [keeps_append hopen]
  refine keeps_close (fun v t hv => ?_) (by decide) ?_ r
  · rw [hplace, CharPlace.after_line fun hmem => h (hv ▸ List.mem_append_left t hmem)]
    decide
  · rw [hplace, CharPlace.after_line h]
    rfl

theorem keeps_lastComment {body : Bytes} (h : chr '\n' ∉ body) :
    start.Keeps (ascii "//" ++ body) := by
  have hopen : start.AllowsAll (ascii "//") := ⟨by decide, by decide, trivial⟩
  have hplace : (start.after (ascii "//")).place = .line := rfl
  rw [keeps_append hopen]
  refine keeps_open (fun v t hv => ?_) ?_
  · rw [hplace, CharPlace.after_line fun hmem => h (hv ▸ List.mem_append_left t hmem)]
    decide
  · rw [hplace, CharPlace.after_line h]
    exact .inl rfl

/-- A `*` behind a text closes no comment. -/
theorem not_infix_concat_star {w : Bytes} (h : ¬ ascii "*/" <:+: w) :
    ¬ ascii "*/" <:+: w ++ [chr '*'] := by
  intro hinside
  rcases List.infix_concat_iff.1 hinside with ⟨v, hv⟩ | hinside
  · have hlast := congrArg List.getLast? hv
    have hclose : (ascii "*/").getLast? = some (chr '/') := rfl
    rw [List.getLast?_concat, List.getLast?_append, hclose, Option.some_or] at hlast
    exact absurd hlast (by decide)
  · exact h hinside

theorem keeps_blockComment {body : Bytes} (h : ¬ ascii "*/" <:+: body) (r : Bytes) :
    start.Keeps (ascii "/*" ++ (body ++ (ascii "*/" ++ r))) ↔ start.Keeps r := by
  have hopen : start.AllowsAll (ascii "/*") := ⟨by decide, by decide, trivial⟩
  have hplace : (start.after (ascii "/*")).place = .block := rfl
  have hbody := not_infix_concat_star h
  have hsplit : body ++ (ascii "*/" ++ r) = body ++ [chr '*'] ++ chr '/' :: r := by
    rw [List.append_assoc]
    rfl
  rw [keeps_append hopen, hsplit]
  refine keeps_close (fun v t hv => ?_) (by decide) ?_ r
  · have hv' : ¬ ascii "*/" <:+: v := fun hinside =>
      hbody (hv ▸ hinside.trans (List.prefix_append v t).isInfix)
    rw [hplace, CharPlace.after_block hv']
    split_ifs <;> decide
  · rw [hplace, CharPlace.after_block hbody, List.getLast?_concat, if_pos rfl]
    rfl

theorem keeps_string {body : Bytes} (h : chr '"' ∉ body) (r : Bytes) :
    start.Keeps (chr '"' :: (body ++ chr '"' :: r)) ↔ start.Keeps r := by
  have hallows : start.Allows (chr '"') := by decide
  have hplace : (start.step (chr '"')).place = .string := rfl
  rw [Keeps, and_iff_right hallows]
  refine keeps_close (fun v t hv => ?_) (by decide) ?_ r
  · rw [hplace, CharPlace.after_string fun hmem => h (hv ▸ List.mem_append_left t hmem)]
    decide
  · rw [hplace, CharPlace.after_string h]
    rfl

theorem keeps_openString {body : Bytes} (h : chr '"' ∉ body) :
    start.Keeps (chr '"' :: body) := by
  have hallows : start.Allows (chr '"') := by decide
  have hplace : (start.step (chr '"')).place = .string := rfl
  refine ⟨hallows, keeps_open (fun v t hv => ?_) ?_⟩
  · rw [hplace, CharPlace.after_string fun hmem => h (hv ▸ List.mem_append_left t hmem)]
    decide
  · rw [hplace, CharPlace.after_string h]
    exact .inr rfl

theorem keeps_blanks {w : Bytes} (hw : ∀ c ∈ w, isSpace c = true) (r : Bytes) :
    start.Keeps (w ++ r) ↔ start.Keeps r := by
  induction w with
  | nil => rfl
  | cons c w ih =>
    rw [List.forall_mem_cons] at hw
    have hspec : ∀ c, isSpace c = true →
        Lexer.isWordChar c = false ∧ c ≠ chr '"' ∧ c ≠ chr '/' := by decide +kernel
    obtain ⟨hword, hquote, hslash⟩ := hspec c hw.1
    rw [List.cons_append, keeps_cons hword hquote hslash, ih hw.2]

theorem keeps_gap {gap : Bytes} (h : IsGap gap) (r : Bytes) :
    start.Keeps (gap ++ r) ↔ start.Keeps r := by
  cases h with
  | blanks _ hw => exact keeps_blanks hw r
  | @blockComment body h =>
    rw [List.append_assoc, List.append_assoc, keeps_blockComment h]
  | @lineComment body h =>
    rw [List.append_assoc, List.append_assoc, List.singleton_append, keeps_lineComment h]

theorem keeps_gaps {w : Bytes} (h : AreGaps w) (r : Bytes) :
    start.Keeps (w ++ r) ↔ start.Keeps r := by
  obtain ⟨gaps, hgaps, rfl⟩ := h
  induction gaps with
  | nil => rfl
  | cons gap gaps ih =>
    rw [List.forall_mem_cons] at hgaps
    rw [List.flatten_cons, List.append_assoc, keeps_gap hgaps.1, ih hgaps.2]

theorem keeps_lastGaps {w : Bytes} (h : AreLastGaps w) : start.Keeps w := by
  rcases h with hgaps | ⟨gaps, body, hgaps, hbody, rfl⟩
  · rw [← List.append_nil w, keeps_gaps hgaps]
    exact .inl rfl
  · rw [keeps_gaps hgaps]
    exact keeps_lastComment hbody

end Reading

/-! ### What is skipped, if nothing is dropped -/

theorem areGaps_nil : AreGaps [] :=
  ⟨[], List.forall_mem_nil _, rfl⟩

theorem AreGaps.cons {gap w : Bytes} (hgap : IsGap gap) (h : AreGaps w) : AreGaps (gap ++ w) := by
  obtain ⟨gaps, hgaps, rfl⟩ := h
  exact ⟨gap :: gaps, List.forall_mem_cons.2 ⟨hgap, hgaps⟩, rfl⟩

/-- What is skipped in front of the text are gaps, up to a token or up to the end. -/
def SkipsGaps (r : Bytes) : Prop :=
  (skipGap r = [] → AreLastGaps r) ∧
    ∀ c r', skipGap r = c :: r' → ∃ gaps, AreGaps gaps ∧ r = gaps ++ c :: r'

theorem SkipsGaps.append {gap r : Bytes} (hgap : IsGap gap) (h : SkipsGaps r) :
    SkipsGaps (gap ++ r) := by
  obtain ⟨hend, htoken⟩ := h
  unfold SkipsGaps
  rw [skipGap_append hgap]
  refine ⟨fun hnil => ?_, fun c r' hr' => ?_⟩
  · rcases hend hnil with hgaps | ⟨gaps, body, hgaps, hbody, rfl⟩
    · exact .inl (hgaps.cons hgap)
    · exact .inr ⟨gap ++ gaps, body, hgaps.cons hgap, hbody, (List.append_assoc ..).symm⟩
  · obtain ⟨gaps, hgaps, rfl⟩ := htoken c r' hr'
    exact ⟨gap ++ gaps, hgaps.cons hgap, (List.append_assoc ..).symm⟩

/-- A line comment is a gap, or the last one. -/
theorem skipsGaps_line {r : Bytes}
    (ih : ∀ gap r' : Bytes, IsGap gap → chr '/' :: chr '/' :: r = gap ++ r' →
      SkipsGaps (chr '/' :: chr '/' :: r)) :
    SkipsGaps (chr '/' :: chr '/' :: r) := by
  by_cases hmem : chr '\n' ∈ r
  · obtain ⟨body, t, rfl, hbody⟩ := List.eq_append_cons_of_mem hmem
    have hr : chr '/' :: chr '/' :: (body ++ chr '\n' :: t)
        = ascii "//" ++ (body ++ [chr '\n']) ++ t := by
      rw [List.append_assoc, List.append_assoc]
      rfl
    exact ih _ _ (.lineComment hbody) hr
  · -- no line end: the comment takes the rest of the source
    have hdrop : (chr '/' :: r).dropWhile (· != chr '\n') = [] := by
      refine List.dropWhile_eq_nil_iff.2 fun d hd => bne_iff_ne.2 ?_
      rintro rfl
      rcases List.mem_cons.1 hd with hd | hd
      · exact absurd hd (by decide)
      · exact hmem hd
    have hskip : skipGap (chr '/' :: chr '/' :: r) = [] := by
      rw [skipGap_line rfl, hdrop, skipGap]
    refine ⟨fun _ => .inr ⟨[], r, areGaps_nil, hmem, rfl⟩, fun c r' hr' => ?_⟩
    rw [hskip] at hr'
    cases hr'

/-- A block comment that ends where no character is dropped is a gap. -/
theorem exists_blockComment {s : Reading} {r : Bytes} (hs : s.place = .block) (h : s.Keeps r) :
    ∃ gap r', IsGap gap ∧ chr '/' :: chr '*' :: r = gap ++ r' := by
  rcases skipComment_cases r with ⟨body, hbody, hr⟩ | ⟨-, hopen⟩
  · refine ⟨ascii "/*" ++ (body ++ ascii "*/"), skipComment r, .blockComment hbody, ?_⟩
    conv_lhs => rw [hr]
    rw [List.append_assoc, List.append_assoc]
    rfl
  · have hplace := h.place
    rw [hs, CharPlace.after_block hopen] at hplace
    split_ifs at hplace <;> simp at hplace

/-- **If no character is dropped, gaps are skipped.** -/
theorem skipsGaps_of_keeps (r : Bytes) (h : Reading.start.Keeps r) : SkipsGaps r := by
  induction hlength : r.length using Nat.strongRecOn generalizing r with
  | _ length ih =>
    -- a gap in front is complete, and the rest is shorter
    have hgap_case {gap r' : Bytes} (hgap : IsGap gap) (hr : r = gap ++ r') : SkipsGaps r := by
      obtain ⟨c, cs, rfl, -⟩ := hgap.head
      have hless : r'.length < length := by
        rw [hr, List.length_append, List.length_cons] at hlength
        omega
      rw [hr] at h ⊢
      exact (ih _ hless r' ((Reading.keeps_gap hgap r').1 h) rfl).append hgap
    cases r with
    | nil =>
      refine ⟨fun _ => .inl areGaps_nil, fun c r' hr' => ?_⟩
      rw [skipGap] at hr'
      cases hr'
    | cons c r =>
      by_cases hblank : isSpace c = true
      · have hgap : IsGap [c] := .blanks (List.cons_ne_nil c []) fun d hd => by
          rwa [List.mem_singleton.1 hd]
        exact hgap_case hgap rfl
      have hnewline : ¬ (isSpace c = true ∨ c = chr '\n') := by
        rintro (hc | rfl)
        · exact hblank hc
        · exact hblank (by decide)
      by_cases hslash : c = chr '/'
      · rw [hslash] at h hgap_case ⊢
        obtain ⟨-, hnext⟩ := h
        cases r with
        | nil => rcases hnext with hplace | hplace | hplace <;> exact absurd hplace (by decide)
        | cons d r =>
          rcases hnext.1.1 rfl with rfl | rfl
          · exact skipsGaps_line fun gap r' hgap hr => hgap_case hgap hr
          · obtain ⟨gap, r', hgap, hr⟩ := exists_blockComment rfl hnext.2
            exact hgap_case hgap hr
      · have hskip := skipGap_stop hnewline hslash r
        refine ⟨fun hnil => ?_, fun d r' hr' => ⟨[], areGaps_nil, hskip.symm.trans hr'⟩⟩
        rw [hskip] at hnil
        cases hnil

/-- Nothing of a text of gaps is left. -/
theorem skipGap_areGaps {w : Bytes} (h : AreGaps w) : skipGap w = [] := by
  obtain ⟨gaps, hgaps, rfl⟩ := h
  induction gaps with
  | nil => rw [List.flatten_nil, skipGap]
  | cons gap gaps ih =>
    rw [List.forall_mem_cons] at hgaps
    rw [List.flatten_cons, skipGap_append hgaps.1, ih hgaps.2]

/-! ### Lexemes that keep their characters -/

/-- The number begins with the mark of a base. -/
def HasMark (c : UInt8) (r : Bytes) : Prop :=
  c = chr '0' ∧ ∃ d ∈ r.head?, MarksBase d

/-- A `0` that marks no base is a token. -/
theorem scan_zero {r : Bytes} (hmark : ¬ HasMark (chr '0') r) :
    scan (chr '0') r = ((.number, [chr '0']), r) := by
  unfold scan
  rw [if_neg (by decide), if_pos rfl]
  cases r with
  | nil => rfl
  | cons d r =>
    have hd : ¬ MarksBase d := fun hd => hmark ⟨rfl, d, rfl, hd⟩
    simp only [MarksBase, not_or] at hd
    obtain ⟨hx, hX, hb, hB, hdigit⟩ := hd
    dsimp only
    rw [if_neg (by simp [hx, hX]), if_neg (by simp [hb, hB]), if_neg hdigit]

namespace Reading

theorem not_keeps_mark {c : UInt8} {r : Bytes} (h : HasMark c r) : ¬ start.Keeps (c :: r) := by
  obtain ⟨rfl, d, hd, hmark⟩ := h
  rw [List.eq_cons_of_mem_head? hd]
  rintro ⟨-, ⟨-, hallows⟩, -⟩
  exact hallows ⟨rfl, rfl, hmark⟩

/-- A character that is no `0` ends what was before it. -/
theorem keeps_before {before : Before} {r : Bytes}
    (h : ∀ c ∈ r.head?, c ≠ chr '0' ∧ (before = .zero → ¬ MarksBase c)) :
    Keeps ⟨.code, before⟩ r ↔ start.Keeps r := by
  cases r with
  | nil => exact Iff.rfl
  | cons c r =>
    obtain ⟨hzero, hmark⟩ := h c rfl
    have hallows : Allows ⟨.code, before⟩ c :=
      ⟨fun hs => absurd hs (by simp), fun hs => hmark hs.2.1 hs.2.2⟩
    have hallows' : start.Allows c :=
      ⟨fun hs => absurd hs (by decide), fun hs => absurd hs.2.1 (by decide)⟩
    have hstep : step ⟨.code, before⟩ c = step start c := by
      simp only [step, start, hzero, and_false, if_false]
    rw [Keeps, Keeps, hstep, and_iff_right hallows, and_iff_right hallows']

/-- A word, or a number that begins with no `0`. -/
theorem keeps_span {p : UInt8 → Bool} (hp : ∀ c, p c = true → Lexer.isWordChar c = true)
    (hpzero : p (chr '0') = true) {c : UInt8} (hc : p c = true) (hzero : c ≠ chr '0') (r : Bytes) :
    start.Keeps (c :: r) ↔ start.Keeps ((c :: r).dropWhile p) := by
  have hstep (s : Reading) (hs : s.place = .code) {d : UInt8} (hd : Lexer.isWordChar d = true)
      (hbefore : s.before = .other → d ≠ chr '0') : s.step d = ⟨.code, .word⟩ := by
    have hspec : ∀ d, Lexer.isWordChar d = true → d ≠ chr '"' ∧ d ≠ chr '/' := by decide +kernel
    obtain ⟨hquote, hslash⟩ := hspec d hd
    have hnot : ¬ (s.place = .code ∧ s.before = .other ∧ d = chr '0') :=
      fun h => hbefore h.2.1 h.2.2
    rw [step, if_neg hnot, if_pos hd, hs, CharPlace.step_code hquote hslash]
  -- inside a word, no character begins a comment or marks a base
  have hword (w : Bytes) (hw : ∀ d ∈ w, p d = true) (t : Bytes) :
      Keeps ⟨.code, .word⟩ (w ++ t) ↔ Keeps ⟨.code, .word⟩ t := by
    induction w with
    | nil => rfl
    | cons d w ih =>
      rw [List.forall_mem_cons] at hw
      have hallows : Allows ⟨.code, .word⟩ d :=
        ⟨fun hs => absurd hs (by decide), fun hs => absurd hs.2.1 (by decide)⟩
      rw [List.cons_append, Keeps, hstep ⟨.code, .word⟩ rfl (hp d hw.1) (by simp), ih hw.2,
        and_iff_right hallows]
  have hallows : start.Allows c :=
    ⟨fun hs => absurd hs (by decide), fun hs => absurd hs.2.1 (by decide)⟩
  rw [Keeps, and_iff_right hallows, hstep start rfl (hp c hc) fun _ => hzero, List.dropWhile_cons,
    if_pos hc]
  conv_lhs => rw [← List.takeWhile_append_dropWhile (p := p) (l := r)]
  rw [hword _ fun d hd => List.mem_takeWhile_imp hd]
  -- what stops the word is no `0`, so it does not matter that a word stood before it
  refine keeps_before fun d hd => ⟨?_, by simp⟩
  rintro rfl
  have hnot := List.head?_dropWhile_not p r
  rw [hd] at hnot
  simp [hpzero] at hnot

/-- A `0` that marks no base. -/
theorem keeps_zero {r : Bytes} (hmark : ¬ HasMark (chr '0') r) :
    start.Keeps (chr '0' :: r) ↔ start.Keeps r := by
  have hallows : start.Allows (chr '0') := by decide
  have hstep : start.step (chr '0') = ⟨.code, .zero⟩ := by decide
  rw [Keeps, and_iff_right hallows, hstep]
  refine keeps_before fun c hc => ⟨?_, fun _ hmarks => hmark ⟨rfl, c, hc, hmarks⟩⟩
  rintro rfl
  exact hmark ⟨rfl, _, hc, by decide⟩

theorem keeps_literal (r : Bytes) :
    start.Keeps (chr '"' :: r) ↔ start.Keeps (r.dropWhile (· != chr '"')).tail := by
  by_cases hmem : chr '"' ∈ r
  · obtain ⟨body, t, rfl, hbody⟩ := List.eq_append_cons_of_mem hmem
    rw [dropWhile_ne_append hbody, List.tail_cons, keeps_string hbody]
  · rw [dropWhile_ne_of_notMem hmem]
    exact iff_of_true (keeps_openString hmem) (.inl rfl)

/-- A lexeme without a mark keeps the reading at its beginning. -/
theorem keeps_scan {c : UInt8} {r : Bytes} (hslash : c ≠ chr '/') (hmark : ¬ HasMark c r) :
    start.Keeps (c :: r) ↔ start.Keeps (scan c r).2 := by
  by_cases hzero : c = chr '0'
  · rw [hzero] at hmark ⊢
    rw [scan_zero hmark, keeps_zero hmark]
  have hother : ∀ c, ¬ (isAlpha c = true ∨ c = chr '_') → ¬ isDigit c = true →
      Lexer.isWordChar c = false := by decide +kernel
  unfold scan
  rw [if_neg hzero]
  split_ifs with hword hdigit hquote
  · have hspec : ∀ c, isAlpha c = true ∨ c = chr '_' → Lexer.isWordChar c = true ∧ c ≠ chr '0' := by
      decide +kernel
    obtain ⟨hchar, hne⟩ := hspec c hword
    exact keeps_span (fun _ h => h) (by decide) hchar hne r
  · have hspec : ∀ c, isDigit c = true → Lexer.isWordChar c = true := by decide +kernel
    exact keeps_span hspec (by decide) hdigit hzero r
  · rw [hquote, keeps_literal]
  · exact keeps_cons (hother c hword hdigit) hquote hslash r
  · exact keeps_cons (hother c hword hdigit) hquote hslash r

end Reading

/-- A lexeme without a mark is the text up to what follows it. -/
theorem scan_text {c : UInt8} {r : Bytes} (hmark : ¬ HasMark c r) :
    (scan c r).1.2 ++ (scan c r).2 = c :: r := by
  by_cases hzero : c = chr '0'
  · rw [hzero] at hmark ⊢
    rw [scan_zero hmark, List.singleton_append]
  unfold scan
  rw [if_neg hzero]
  split_ifs with hword hdigit hquote
  · exact List.takeWhile_append_dropWhile
  · exact List.takeWhile_append_dropWhile
  · have hrest : (r.dropWhile (· != chr '"')).tail
        = (c :: r).drop ((r.takeWhile (· != chr '"')).length + 2) := by
      have hdrop : r.dropWhile (· != chr '"') = r.drop (r.takeWhile (· != chr '"')).length := by
        conv_rhs => arg 2; rw [← List.takeWhile_append_dropWhile (p := (· != chr '"')) (l := r)]
        exact List.drop_left.symm
      rw [hdrop, List.tail_drop]
      rfl
    rw [hrest]
    exact List.take_append_drop ..
  · rfl
  · rfl

/-! ### The tokens of a source -/

namespace Lexer

theorem source_skipLoop (n : Nat) (l : Lexer) : (skipLoop n l).source = l.source := by
  induction n generalizing l with
  | zero => rfl
  | succ n ih =>
    rw [skipLoop]
    split
    · rfl
    · dsimp only
      split_ifs
      · rw [ih, source_advance]
      · rw [ih, source_advanceWhile, source_advance]
      · rw [ih, source_blockCommentLoop, source_advance, source_advance]
      · rw [ih, source_advance]
      · rfl

theorem source_skip (l : Lexer) : l.skipUnmeaningfulString.source = l.source :=
  source_skipLoop l.left l

theorem source_nextToken (l : Lexer) : l.nextToken.2.source = l.source := by
  have hnumber (p : UInt8 → Bool) (column : Nat) (m : Lexer) :
      (m.numberToken p column).2.source = m.source := source_advanceWhile p m
  rw [nextToken, ← l.source_skip]
  generalize l.skipUnmeaningfulString = m
  cases m.peek with
  | none => rfl
  | some c =>
    dsimp only
    -- one case for each branch of `next_token`
    split_ifs
    · exact source_advanceWhile _ m
    · cases m.advance.peek with
      | none => exact source_advance m
      | some d =>
        dsimp only
        split_ifs
        · rw [hnumber, source_advance, source_advance]
        · rw [hnumber, source_advance, source_advance]
        · rw [hnumber, source_advance]
        · exact source_advance m
    · exact hnumber _ _ m
    · rw [source_advance, source_advanceWhile, source_advance]
    · exact source_advance m
    · exact source_advance m

/-- The characters of a lexeme that are not in its text. -/
def markLength (c : UInt8) (r : Bytes) : Nat :=
  if c = chr '0' then
    match r with
    | [] => 0
    | d :: _ =>
      if d = chr 'x' ∨ d = chr 'X' then 2
      else if d = chr 'b' ∨ d = chr 'B' then 2
      else if isDigit d then 1
      else 0
  else 0

theorem textStart_eq {l : Lexer} {c : UInt8} {r : Bytes} (h : skipGap l.rest = c :: r) :
    l.textStart = l.skipUnmeaningfulString.pos + markLength c r := by
  have hrest := l.rest_skipUnmeaningfulString
  rw [h] at hrest
  rw [textStart]
  -- only what is left behind the gap matters
  generalize l.skipUnmeaningfulString = m at hrest
  have hpeek : m.peek = some c := by
    rw [peek_eq_head?, hrest]
    rfl
  have hpeek' : m.advance.peek = r.head? := by
    rw [peek_eq_head?, rest_advance, hrest, List.tail_cons]
  unfold markLength
  rw [hpeek]
  by_cases hzero : c = chr '0'
  · simp only [hzero, if_true, hpeek']
    cases r with
    | nil => simp
    | cons d r =>
      simp only [List.head?_cons]
      split_ifs <;> simp
  · have hne : some c ≠ some (chr '0') := fun hs => hzero (Option.some.inj hs)
    rw [if_neg hne, if_neg hzero, Nat.add_zero]

theorem markLength_of_hasMark {c : UInt8} {r : Bytes} (h : HasMark c r) : 0 < markLength c r := by
  obtain ⟨rfl, d, hd, hmark⟩ := h
  rw [List.eq_cons_of_mem_head? hd]
  unfold markLength
  simp only [if_true]
  split_ifs with hx hb hdigit
  · exact Nat.two_pos
  · exact Nat.two_pos
  · exact Nat.one_pos
  · rw [not_or] at hx hb
    rcases hmark with hmark | hmark | hmark | hmark | hmark
    · exact absurd hmark hx.1
    · exact absurd hmark hx.2
    · exact absurd hmark hb.1
    · exact absurd hmark hb.2
    · exact absurd hmark hdigit

theorem markLength_of_not_hasMark {c : UInt8} {r : Bytes} (h : ¬ HasMark c r) :
    markLength c r = 0 := by
  unfold markLength
  split_ifs with hzero
  · cases r with
    | nil => rfl
    | cons d r =>
      have hd : ¬ MarksBase d := fun hd => h ⟨hzero, d, rfl, hd⟩
      simp only [MarksBase, not_or] at hd
      obtain ⟨hx, hX, hb, hB, hdigit⟩ := hd
      simp only [hx, hX, hb, hB, hdigit, or_self, if_false]
      rfl
  · rfl

/-- What lies before the text of the next token: a gap and the mark of the base. -/
theorem textStart_of_gap {l : Lexer} {pos : Nat} {gap r : Bytes} {c : UInt8}
    (hpos : l.source.drop pos = l.rest) (hgap : skipGap l.rest = c :: r)
    (hsplit : l.rest = gap ++ c :: r) : l.textStart = pos + gap.length + markLength c r := by
  have hrest := l.rest_skipUnmeaningfulString
  rw [hgap, rest, l.source_skip] at hrest
  have hlength := congrArg List.length hrest
  have hlength' := congrArg List.length (hpos.trans hsplit)
  rw [List.length_drop, List.length_cons] at hlength
  rw [List.length_drop, List.length_append, List.length_cons] at hlength'
  rw [textStart_eq hgap]
  omega

/-- Without a mark, the rest of the source begins where the text ends. -/
theorem drop_textEnd {l : Lexer} {pos : Nat} {gap r : Bytes} {c : UInt8}
    (hpos : l.source.drop pos = l.rest) (hgap : skipGap l.rest = c :: r)
    (hsplit : l.rest = gap ++ c :: r) (hmark : ¬ HasMark c r) :
    l.source.drop (l.textStart + (scan c r).1.2.length) = (scan c r).2 := by
  have hdrop : l.source.drop (pos + gap.length) = c :: r := by
    rw [← List.drop_drop, hpos, hsplit, List.drop_left]
  rw [textStart_of_gap hpos hgap hsplit, markLength_of_not_hasMark hmark, Nat.add_zero,
    ← List.drop_drop, hdrop, ← scan_text hmark, List.drop_left]

/-- The views from a state on cover the rest of the source exactly when nothing there is dropped. -/
theorem coveredFrom_iff (n : Nat) (l : Lexer) (pos : Nat) (hpos : l.source.drop pos = l.rest)
    (hn : l.rest.length < n) :
    CoveredFrom l.source pos (views n l) ↔ Reading.start.Keeps l.rest := by
  -- token by token: the next one starts where the text of this one ends
  induction n generalizing l pos with
  | zero => exact absurd hn (Nat.not_lt_zero _)
  | succ n ih =>
    have htoken := l.nextToken_eq
    rw [views]
    cases hgap : skipGap l.rest with
    | nil =>
      rw [hgap] at htoken
      have htype : l.nextToken.1.type = .endOfFile := congrArg (·.1.1) htoken
      simp only [htype, if_true, CoveredFrom]
      rw [hpos]
      exact ⟨Reading.keeps_lastGaps, fun h => (skipsGaps_of_keeps _ h).1 hgap⟩
    | cons c r =>
      rw [hgap] at htoken
      have htype : l.nextToken.1.type ≠ .endOfFile := by
        have hscan := Parser.scan_type_ne_endOfFile c r
        rwa [← congrArg (·.1.1) htoken] at hscan
      have htext : l.nextToken.1.text = (scan c r).1.2 := congrArg (·.1.2) htoken
      have hrest : l.nextToken.2.rest = (scan c r).2 := congrArg Prod.snd htoken
      simp only [if_neg htype, CoveredFrom]
      obtain ⟨gap, hsplit, hskip⟩ := skipGap_spec hgap
      have hstart := textStart_of_gap hpos hgap hsplit
      have hbetween : l.textStart - pos = gap.length + markLength c r := by omega
      have htake : (l.source.drop pos).take (l.textStart - pos)
          = gap ++ (c :: r).take (markLength c r) := by
        rw [hpos, hsplit, hbetween, List.take_length_add_append]
      rw [htake]
      by_cases hmark : HasMark c r
      · refine iff_of_false ?_ fun h => ?_
        · -- the mark is no gap
          rintro ⟨-, hgaps, -⟩
          have hpositive := markLength_of_hasMark hmark
          obtain ⟨k, hk⟩ : ∃ k, markLength c r = k + 1 := ⟨markLength c r - 1, by omega⟩
          rw [hk, List.take_succ_cons] at hgaps
          exact absurd ((hskip _).symm.trans (skipGap_areGaps hgaps)) (by simp)
        · obtain ⟨gaps, hgaps, hsplit'⟩ := (skipsGaps_of_keeps _ h).2 c r hgap
          rw [hsplit', Reading.keeps_gaps hgaps] at h
          exact Reading.not_keeps_mark hmark h
      · have hnext : l.nextToken.2.source.drop (l.textStart + l.nextToken.1.text.length)
            = l.nextToken.2.rest := by
          rw [source_nextToken, htext, hrest]
          exact drop_textEnd hpos hgap hsplit hmark
        have hless : l.nextToken.2.rest.length < n := by
          have hgap' := length_skipGap_le l.rest
          have hscan := length_scan_le c r
          rw [hgap, List.length_cons] at hgap'
          rw [hrest]
          omega
        have hrec := ih l.nextToken.2 _ hnext hless
        rw [source_nextToken] at hrec
        rw [hrec, hrest, ← Reading.keeps_scan (skipGap_head hgap).2 hmark,
          markLength_of_not_hasMark hmark, List.take_zero, List.append_nil, hsplit]
        constructor
        · rintro ⟨-, hgaps, hkeeps⟩
          exact (Reading.keeps_gaps hgaps _).2 hkeeps
        · intro h
          -- what is skipped in front of a token is determined by the token
          obtain ⟨gaps, hgaps, hsplit'⟩ := (skipsGaps_of_keeps _ (hsplit ▸ h)).2 c r hgap
          obtain rfl : gap = gaps := List.append_cancel_right (hsplit.symm.trans hsplit')
          exact ⟨by omega, hgaps, (Reading.keeps_gaps hgaps _).1 h⟩

end Lexer

/-- **Nothing is dropped but blanks and comments** exactly when every `/` outside of strings and
comments opens a comment, no block comment is open at the end, and no number begins with the mark of
a base. -/
theorem covered_iff (source : Bytes) : Covered source ↔ Reading.start.Keeps source :=
  Lexer.coveredFrom_iff _ { source } 0 rfl (Nat.lt_succ_self _)

/-- A `/` between two tokens is dropped. -/
theorem not_covered_slash : ¬ ∀ source, Covered source := by
  intro h
  have hkeeps : ¬ Reading.start.Keeps (ascii "interface a / \x7b\x7d") := by decide
  exact hkeeps ((Lexer.coveredFrom_iff _ { source := ascii "interface a / \x7b\x7d" } 0 rfl
    (Nat.lt_succ_self _)).1 (h _))

end Sidlc
