import Sidlc.CheckedLexer
import Sidlc.Equiv.Places

/-!
# Where the lexer leaves its input

Every access of the lexer is guarded by `pos < source.length()`, except the `advance` over the
closing quote of a string literal. So the calls of `next_token` stay inside the source exactly when
the text does not end inside a string literal (`calls_inside_iff`).
-/

namespace Sidlc

namespace Lexer

/-! ### Guarded accesses -/

theorem ok_bind {ε α β : Type} (a : α) (f : α → Except ε β) : (Except.ok a >>= f) = f a :=
  rfl

theorem readChecked_of_some {l : Lexer} {i : Nat} {c : UInt8} (h : l.source[i]? = some c) :
    l.readChecked i = .ok c := by
  rw [readChecked, h]

theorem peekChecked_eq (l : Lexer) : l.peekChecked = .ok l.peek := by
  rw [peekChecked, peek]
  by_cases h : l.pos < l.source.length
  · have hread := List.getElem?_eq_getElem h
    rw [if_pos h, readChecked_of_some hread, hread]
    rfl
  · rw [if_neg h, List.getElem?_eq_none (Nat.not_lt.1 h)]
    rfl

theorem lt_of_peek {l : Lexer} {c : UInt8} (h : l.peek = some c) : l.pos < l.source.length :=
  (List.getElem?_eq_some_iff.1 h).1

/-- `advance` on a character of the source. -/
theorem advanceChecked_eq {l : Lexer} {c : UInt8} (h : l.peek = some c) :
    l.advanceChecked = .ok l.advance := by
  have hlt := lt_of_peek h
  have hpos : ¬ l.source.length < l.pos + 1 := by omega
  rw [advanceChecked, readChecked_of_some h, ok_bind, advance, h]
  by_cases hc : c = chr '\n'
  · subst hc
    simp only [if_true, if_neg hpos]
    rfl
  · have hsome : some c ≠ some (chr '\n') := fun hs => hc (Option.some.inj hs)
    simp only [if_neg hc, if_neg hsome, if_neg hpos]
    rfl

/-- `advance` behind the source. -/
theorem advanceChecked_error {l : Lexer} (h : l.peek = none) :
    l.advanceChecked = .error (.read l.pos) := by
  have hread : l.readChecked l.pos = .error (.read l.pos) := by
    rw [peek] at h
    rw [readChecked, h]
  rw [advanceChecked, hread]
  rfl

theorem substrChecked_eq {l : Lexer} {start count : Nat} (h : start ≤ l.source.length) :
    l.substrChecked start count = .ok (l.substr start count) := by
  rw [substrChecked, if_neg (Nat.not_lt.2 h)]

/-! ### Loops -/

theorem advanceLoopChecked_eq (p : UInt8 → Bool) (n : Nat) (l : Lexer) :
    advanceLoopChecked p n l = .ok (advanceLoop p n l) := by
  induction n generalizing l with
  | zero => rfl
  | succ n ih =>
    rw [advanceLoopChecked, peekChecked_eq, ok_bind, advanceLoop]
    cases hpeek : l.peek with
    | none => rfl
    | some c =>
      by_cases hc : p c = true
      · simp only [if_pos hc, advanceChecked_eq hpeek, ok_bind, ih]
      · simp only [if_neg hc]
        rfl

theorem advanceWhileChecked_eq (p : UInt8 → Bool) (l : Lexer) :
    advanceWhileChecked p l = .ok (advanceWhile p l) :=
  advanceLoopChecked_eq p l.left l

theorem closesCommentChecked_eq {l : Lexer} {c : UInt8} (h : l.peek = some c) :
    l.closesCommentChecked
      = .ok (decide (c = chr '*' ∧ l.source[l.pos + 1]? = some (chr '/'))) := by
  rw [closesCommentChecked]
  by_cases hnext : l.pos + 1 < l.source.length
  · have hread := List.getElem?_eq_getElem hnext
    rw [if_pos hnext, readChecked_of_some h, ok_bind]
    by_cases hc : c = chr '*'
    · rw [if_pos hc, readChecked_of_some hread, ok_bind, hread]
      simp only [hc, true_and, Option.some.injEq]
      rfl
    · rw [if_neg hc]
      simp only [hc, false_and, decide_false]
      rfl
  · rw [if_neg hnext, List.getElem?_eq_none (Nat.not_lt.1 hnext)]
    simp only [reduceCtorEq, and_false, decide_false]
    rfl

theorem blockCommentLoopChecked_eq (n : Nat) (l : Lexer) :
    blockCommentLoopChecked n l = .ok (blockCommentLoop n l) := by
  induction n generalizing l with
  | zero => rfl
  | succ n ih =>
    rw [blockCommentLoopChecked, blockCommentLoop]
    cases hpeek : l.peek with
    | none =>
      -- without a character left, the loop ends by its bound
      have hend : ¬ l.pos < l.source.length := by
        intro hlt
        rw [peek, List.getElem?_eq_getElem hlt] at hpeek
        exact absurd hpeek (by simp)
      rw [if_neg hend]
    | some c =>
      rw [if_pos (lt_of_peek hpeek), closesCommentChecked_eq hpeek, ok_bind]
      by_cases hclose : c = chr '*' ∧ l.source[l.pos + 1]? = some (chr '/')
      · have hpeek' : l.advance.peek = some (chr '/') := by
          rw [peek, source_advance, pos_advance]
          exact hclose.2
        simp only [hclose, decide_true, if_true, advanceChecked_eq hpeek, ok_bind,
          advanceChecked_eq hpeek', and_self]
      · simp only [hclose, decide_false, Bool.false_eq_true, if_false, advanceChecked_eq hpeek,
          ok_bind, ih]

theorem skipLoopChecked_eq (n : Nat) (l : Lexer) : skipLoopChecked n l = .ok (skipLoop n l) := by
  induction n generalizing l with
  | zero => rfl
  | succ n ih =>
    rw [skipLoopChecked, peekChecked_eq, ok_bind, skipLoop]
    cases hpeek : l.peek with
    | none => rfl
    | some c =>
      dsimp only
      rw [advanceChecked_eq hpeek]
      simp only [ok_bind, peekChecked_eq, ih]
      by_cases hblank : isSpace c = true ∨ c = chr '\n'
      · rw [if_pos hblank, if_pos hblank]
      rw [if_neg hblank, if_neg hblank]
      by_cases hslash : c = chr '/'
      · rw [if_pos hslash, if_pos hslash]
        by_cases hline : l.advance.peek = some (chr '/')
        · rw [if_pos hline, if_pos hline, advanceWhileChecked_eq, ok_bind]
        rw [if_neg hline, if_neg hline]
        by_cases hblock : l.advance.peek = some (chr '*')
        · rw [if_pos hblock, if_pos hblock, advanceChecked_eq hblock, ok_bind,
            blockCommentLoopChecked_eq, ok_bind]
        · rw [if_neg hblock, if_neg hblock]
      · rw [if_neg hslash, if_neg hslash]
        rfl

theorem skipUnmeaningfulStringChecked_eq (l : Lexer) :
    l.skipUnmeaningfulStringChecked = .ok l.skipUnmeaningfulString :=
  skipLoopChecked_eq l.left l

/-! ### Tokens -/

theorem numberTokenChecked_eq (p : UInt8 → Bool) (column : Nat) {l : Lexer}
    (h : l.pos ≤ l.source.length) :
    l.numberTokenChecked p column = .ok (l.numberToken p column) := by
  have hstart : l.pos ≤ (l.advanceWhile p).source.length := by rwa [source_advanceWhile]
  rw [numberTokenChecked]
  simp only [advanceWhileChecked_eq, ok_bind, substrChecked_eq hstart]
  rfl

theorem lastTokenChecked_eq (type : TokenType) (column : Nat) {l : Lexer}
    (h : l.pos ≤ l.source.length) :
    l.lastTokenChecked type column
      = .ok (⟨type, l.substr (l.pos - 1) 1, l.currentLine, column⟩, l) := by
  have hstart : l.pos - 1 ≤ l.source.length := by omega
  rw [lastTokenChecked, substrChecked_eq hstart]
  rfl

theorem pos_advance_le {l : Lexer} {c : UInt8} (h : l.peek = some c) :
    l.advance.pos ≤ l.advance.source.length := by
  have hlt := lt_of_peek h
  rw [pos_advance, source_advance]
  omega

/-- What the loop over a string literal stops at. -/
theorem peek_advanceWhile_quote {l : Lexer} {r : Bytes} (h : l.rest = r) :
    (l.advanceWhile (· != chr '"')).peek = if chr '"' ∈ r then some (chr '"') else none := by
  rw [peek_eq_head?, rest_advanceWhile, h]
  split_ifs with hquote
  · obtain ⟨body, rest, rfl, hbody⟩ := List.eq_append_cons_of_mem hquote
    rw [dropWhile_ne_append hbody, List.head?_cons]
  · rw [dropWhile_ne_of_notMem hquote, List.head?_nil]

/-- **A call stays inside** unless it meets a string literal that is not closed, and then it does
what the unchecked call does. -/
theorem nextTokenChecked_eq {l : Lexer}
    (hclosed : ∀ r, skipGap l.rest = chr '"' :: r → chr '"' ∈ r) :
    l.nextTokenChecked = .ok l.nextToken := by
  have hskip := l.rest_skipUnmeaningfulString
  rw [← hskip] at hclosed
  rw [nextTokenChecked, nextToken, skipUnmeaningfulStringChecked_eq, ok_bind]
  generalize l.skipUnmeaningfulString = m at hclosed
  rw [peekChecked_eq, ok_bind]
  cases hpeek : m.peek with
  | none => rfl
  | some c =>
    have hlt := lt_of_peek hpeek
    have hadvance := pos_advance_le hpeek
    dsimp only
    rw [advanceChecked_eq hpeek]
    simp only [ok_bind, peekChecked_eq]
    split_ifs with hword hzero hdigit hquote
    · have hstart : m.pos ≤ (m.advanceWhile isWordChar).source.length := by
        rw [source_advanceWhile]
        omega
      simp only [advanceWhileChecked_eq, ok_bind, substrChecked_eq hstart]
      rfl
    · cases hpeek' : m.advance.peek with
      | none => exact lastTokenChecked_eq _ _ hadvance
      | some d =>
        dsimp only
        rw [advanceChecked_eq hpeek']
        simp only [ok_bind]
        split_ifs with hx hb hd
        · exact numberTokenChecked_eq _ _ (pos_advance_le hpeek')
        · exact numberTokenChecked_eq _ _ (pos_advance_le hpeek')
        · exact numberTokenChecked_eq _ _ hadvance
        · exact lastTokenChecked_eq _ _ hadvance
    · exact numberTokenChecked_eq _ _ (Nat.le_of_lt hlt)
    · -- a string, where the closing quote is advanced over without a look
      have hrest : m.rest = chr '"' :: m.rest.tail := by
        rw [peek_eq_head?] at hpeek
        rw [List.eq_cons_of_mem_head? hpeek, hquote, List.tail_cons]
      have hend : (m.advance.advanceWhile (· != chr '"')).peek = some (chr '"') := by
        rw [peek_advanceWhile_quote m.rest_advance, if_pos (hclosed _ hrest)]
      have hstart : m.advance.pos - 1 ≤ (m.advance.advanceWhile (· != chr '"')).source.length := by
        rw [source_advanceWhile]
        omega
      simp only [advanceWhileChecked_eq, ok_bind, substrChecked_eq hstart, advanceChecked_eq hend]
      rfl
    · exact lastTokenChecked_eq _ _ hadvance
    · exact lastTokenChecked_eq _ _ hadvance

/-- The call that meets an open string literal reads behind the source. -/
theorem nextTokenChecked_error {l : Lexer} {r : Bytes} (h : skipGap l.rest = chr '"' :: r)
    (hopen : chr '"' ∉ r) : ∃ i, l.nextTokenChecked = .error (.read i) := by
  have hskip := l.rest_skipUnmeaningfulString
  rw [h] at hskip
  rw [nextTokenChecked, skipUnmeaningfulStringChecked_eq, ok_bind]
  generalize l.skipUnmeaningfulString = m at hskip
  have hpeek : m.peek = some (chr '"') := by
    rw [peek_eq_head?, hskip]
    rfl
  have hadvance := pos_advance_le hpeek
  have hrest : m.advance.rest = r := by rw [rest_advance, hskip, List.tail_cons]
  -- the loop stops at the end of the source
  have hend : (m.advance.advanceWhile (· != chr '"')).peek = none := by
    rw [peek_advanceWhile_quote hrest, if_neg hopen]
  have hstart : m.advance.pos - 1 ≤ (m.advance.advanceWhile (· != chr '"')).source.length := by
    rw [source_advanceWhile]
    omega
  have hword : ¬ (isAlpha (chr '"') = true ∨ chr '"' = chr '_') := by decide
  have hzero : chr '"' ≠ chr '0' := by decide
  have hdigit : ¬ isDigit (chr '"') = true := by decide
  rw [peekChecked_eq, ok_bind, hpeek]
  dsimp only
  rw [if_neg hword, if_neg hzero, if_neg hdigit, if_pos rfl]
  simp only [advanceChecked_eq hpeek, advanceWhileChecked_eq, ok_bind, substrChecked_eq hstart,
    advanceChecked_error hend]
  exact ⟨_, rfl⟩

/-! ### Calls -/

theorem callsChecked_succ {l : Lexer} {n : Nat} {r : Token × Lexer}
    (h : l.nextTokenChecked = .ok r) : callsChecked (n + 1) l = callsChecked n r.2 := by
  rw [callsChecked, h]
  rfl

/-- No call moves at the end of the source. -/
theorem calls_at_end (n : Nat) {l : Lexer} (h : skipGap l.rest = []) :
    ∃ l', callsChecked n l = .ok l' := by
  induction n generalizing l with
  | zero => exact ⟨l, rfl⟩
  | succ n ih =>
    have hclosed : ∀ r, skipGap l.rest = chr '"' :: r → chr '"' ∈ r := by
      intro r hr
      rw [h] at hr
      cases hr
    rw [callsChecked_succ (nextTokenChecked_eq hclosed)]
    have hnext := congrArg Prod.snd l.nextToken_eq
    rw [h] at hnext
    have hrest : l.nextToken.2.rest = [] := hnext
    refine ih ?_
    rw [hrest, skipGap]

/-- The calls from a state on. -/
theorem calls_iff (l : Lexer) :
    (∀ n, ∃ l', callsChecked n l = .ok l') ↔ CharPlace.after .code l.rest ≠ .string := by
  -- call by call, as each leaves less of the source
  induction hlength : l.rest.length using Nat.strongRecOn generalizing l with
  | _ length ih =>
    rw [ne_eq, after_skipGap]
    cases hgap : skipGap l.rest with
    | nil => exact iff_of_true (fun n => calls_at_end n hgap) (by decide)
    | cons c r =>
      by_cases hopen : c = chr '"' ∧ chr '"' ∉ r
      · -- the next call runs off the end
        obtain ⟨rfl, hr⟩ := hopen
        have hstring : CharPlace.after .code (chr '"' :: r) = .string :=
          CharPlace.after_string hr
        refine iff_of_false (fun h => ?_) (not_not.2 hstring)
        obtain ⟨l', hl'⟩ := h 1
        obtain ⟨i, herror⟩ := nextTokenChecked_error hgap hr
        rw [callsChecked, herror] at hl'
        cases hl'
      · have hclosed : c = chr '"' → chr '"' ∈ r := by
          intro hc
          by_contra hr
          exact hopen ⟨hc, hr⟩
        have hnext := congrArg Prod.snd l.nextToken_eq
        rw [hgap] at hnext
        have hrest : l.nextToken.2.rest = (scan c r).2 := hnext
        have hcall : l.nextTokenChecked = .ok l.nextToken := by
          refine nextTokenChecked_eq fun r' hr' => ?_
          obtain ⟨hc, rfl⟩ := List.cons.inj (hgap.symm.trans hr')
          exact hclosed hc
        have hless : l.nextToken.2.rest.length < length := by
          have hgap' := length_skipGap_le l.rest
          have hscan := length_scan_le c r
          rw [hgap, List.length_cons] at hgap'
          rw [hrest]
          omega
        rw [after_scan (skipGap_head hgap).2 r hclosed, ← hrest, ← ne_eq, ← ih _ hless _ rfl]
        constructor
        · intro h n
          obtain ⟨l', hl'⟩ := h (n + 1)
          rw [callsChecked_succ hcall] at hl'
          exact ⟨l', hl'⟩
        · intro h n
          cases n with
          | zero => exact ⟨l, rfl⟩
          | succ n =>
            rw [callsChecked_succ hcall]
            exact h n

/-- **The lexer stays inside its input** exactly when the text does not end inside a string
literal. -/
theorem calls_inside_iff (source : Bytes) :
    (∀ n, ∃ l, callsChecked n { source } = .ok l) ↔ CharPlace.after .code source ≠ .string :=
  calls_iff { source }

/-- The advance over a closing quote that is not there reads behind the source. -/
theorem not_calls_inside_quote :
    ¬ ∀ (source : Bytes) (n : Nat), ∃ l, callsChecked n { source } = .ok l := by
  intro h
  obtain ⟨l, hl⟩ := h (ascii "\"abc") 1
  have herror : callsChecked 1 { source := ascii "\"abc" } = .error (.read 4) := rfl
  exact absurd (hl.symm.trans herror) (by simp)

end Lexer

end Sidlc
