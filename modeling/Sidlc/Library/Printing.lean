import Sidlc.Library.Grammar

/-!
# Printers and the grammars they print

A lexer turns a text into tokens. `Prints lex E t L a` says that the text `t`, put in front of any
text that satisfies `E`, is read as a sentence of the language `L` that denotes `a`. The condition
`E` is for tokens that only end where the next text begins with something else.

The rules follow the shape of a grammar, so a printer is proved correct against the production for
what it prints.
-/

namespace Grammar

variable {χ τ α β γ : Type}

/-- A loop that puts `separator` after every element but the last. -/
def separatedBy (separator : List χ) (print : α → List χ) : List α → List χ
  | [] => []
  | [x] => print x
  | x :: xs => print x ++ (separator ++ separatedBy separator print xs)

theorem separatedBy_cons {separator : List χ} {print : α → List χ} {x : α} {xs : List α}
    (hne : xs = [] → False) :
    separatedBy separator print (x :: xs)
      = print x ++ (separator ++ separatedBy separator print xs) := by
  cases xs with
  | nil => exact (hne rfl).elim
  | cons y ys => rfl

theorem separatedBy_map {separator : List χ} {print : β → List χ} (f : α → β) (xs : List α) :
    separatedBy separator print (xs.map f) = separatedBy separator (fun x => print (f x)) xs := by
  induction xs using separatedBy.induct with
  | case1 => rfl
  | case2 x => rfl
  | case3 x xs hne ih =>
    have hne' : xs.map f = [] → False := fun h => hne (List.map_eq_nil_iff.1 h)
    rw [List.map_cons, separatedBy_cons hne', separatedBy_cons hne, ih]

/-- In front of a text that satisfies `E`, the text `t` is read as a sentence that denotes `a`. -/
def Prints (lex : List χ → List τ) (E : List χ → Prop) (t : List χ) (L : Lang τ α) (a : α) : Prop :=
  ∃ ts, L ts a ∧ ∀ r, E r → lex (t ++ r) = ts ++ lex r

/-- No condition on the text that follows. -/
def Anything (_ : List χ) : Prop :=
  True

variable {lex : List χ → List τ} {E F : List χ → Prop}

namespace Prints

theorem mono {t : List χ} {L : Lang τ α} {a : α} (h : Prints lex E t L a) (hE : ∀ r, F r → E r) :
    Prints lex F t L a := by
  obtain ⟨ts, ha, hlex⟩ := h
  exact ⟨ts, ha, fun r hr => hlex r (hE r hr)⟩

/-- A text that can stand before anything is a sentence by itself. -/
theorem self {t : List χ} {L : Lang τ α} {a : α} (h : Prints lex Anything t L a)
    (hnil : lex [] = []) : L (lex t) a ∧ ∀ r, lex (t ++ r) = lex t ++ lex r := by
  obtain ⟨ts, ha, hlex⟩ := h
  have hself : lex t = ts := by
    have htext := hlex [] trivial
    rwa [List.append_nil, hnil, List.append_nil] at htext
  rw [hself]
  exact ⟨ha, fun r => hlex r trivial⟩

theorem ofAnything {t : List χ} {L : Lang τ α} {a : α} (h : Prints lex Anything t L a) :
    Prints lex E t L a :=
  h.mono fun _ _ => trivial

theorem lang {t : List χ} {L M : Lang τ α} {a : α} (h : Prints lex E t L a)
    (hLM : ∀ ts, L ts a → M ts a) : Prints lex E t M a := by
  obtain ⟨ts, ha, hlex⟩ := h
  exact ⟨ts, hLM ts ha, hlex⟩

protected theorem pure (a : α) : Prints lex E [] (pure a) a :=
  ⟨[], ⟨rfl, rfl⟩, fun _ _ => rfl⟩

/-- Two texts, where the second one may follow the first, and what their sentences make up. -/
theorem combine {t u : List χ} {L : Lang τ α} {M : Lang τ β} {K : Lang τ γ} {a : α} {b : β} {c : γ}
    (h : Prints lex E t L a) (hf : Prints lex F u M b) (hE : ∀ r, F r → E (u ++ r))
    (hK : ∀ xs ys, L xs a → M ys b → K (xs ++ ys) c) : Prints lex F (t ++ u) K c := by
  obtain ⟨ts, ha, hts⟩ := h
  obtain ⟨us, hb, hus⟩ := hf
  refine ⟨ts ++ us, hK ts us ha hb, fun r hr => ?_⟩
  rw [List.append_assoc, hts _ (hE r hr), hus r hr, List.append_assoc]

protected theorem bind {t u : List χ} {L : Lang τ α} {f : α → Lang τ β} {a : α} {b : β}
    (h : Prints lex E t L a) (hf : Prints lex F u (f a) b) (hE : ∀ r, F r → E (u ++ r)) :
    Prints lex F (t ++ u) (L >>= f) b :=
  h.combine hf hE fun xs ys hx hy => ⟨a, xs, ys, rfl, hx, hy⟩

/-- The same where anything may follow the first text. -/
theorem andThen {t u : List χ} {L : Lang τ α} {f : α → Lang τ β} {a : α} {b : β}
    (h : Prints lex Anything t L a) (hf : Prints lex F u (f a) b) :
    Prints lex F (t ++ u) (L >>= f) b :=
  h.bind hf fun _ _ => trivial

/-- What the sentence denotes is passed on to `g`. -/
theorem thenReturn {t : List χ} {L : Lang τ α} {a : α} (g : α → β) (h : Prints lex E t L a) :
    Prints lex E t (L >>= fun x => Pure.pure (g x)) (g a) := by
  obtain ⟨ts, ha, hlex⟩ := h
  exact ⟨ts, ⟨a, ts, [], (List.append_nil ts).symm, ha, rfl, rfl⟩, hlex⟩

/-- A text that means nothing, in front. -/
theorem skip {w t : List χ} {L : Lang τ α} {a : α} (hw : ∀ r, lex (w ++ r) = lex r)
    (h : Prints lex E t L a) : Prints lex E (w ++ t) L a := by
  obtain ⟨ts, ha, hts⟩ := h
  refine ⟨ts, ha, fun r hr => ?_⟩
  rw [List.append_assoc, hw, hts r hr]

/-- A text that means nothing, behind. -/
theorem skipAfter {w t : List χ} {L : Lang τ α} {a : α} (h : Prints lex E t L a)
    (hw : ∀ r, lex (w ++ r) = lex r) (hE : ∀ r, F r → E (w ++ r)) : Prints lex F (t ++ w) L a := by
  obtain ⟨ts, ha, hts⟩ := h
  refine ⟨ts, ha, fun r hr => ?_⟩
  rw [List.append_assoc, hts _ (hE r hr), hw]

theorem orLeft {t : List χ} {L M : Lang τ α} {a : α} (h : Prints lex E t L a) :
    Prints lex E t (L.or M) a :=
  h.lang fun _ => .inl

theorem orRight {t : List χ} {L M : Lang τ α} {a : α} (h : Prints lex E t M a) :
    Prints lex E t (L.or M) a :=
  h.lang fun _ => .inr

/-! ### Repetition -/

section Repetition

variable {B : β → Lang τ β} {b b' b'' : β}

theorem iterateNil : Prints lex E [] (Lang.iterate B b) b :=
  ⟨[], .done b, fun _ _ => rfl⟩

theorem iterateOne {t : List χ} (h : Prints lex E t (B b) b') :
    Prints lex E t (Lang.iterate B b) b' :=
  h.lang fun ts hts => by
    rw [← List.append_nil ts]
    exact .step hts (.done b')

theorem iterateAppend {t u : List χ} (h : Prints lex E t (Lang.iterate B b) b')
    (hs : Prints lex F u (Lang.iterate B b') b'') (hE : ∀ r, F r → E (u ++ r)) :
    Prints lex F (t ++ u) (Lang.iterate B b) b'' :=
  h.combine hs hE fun _ _ => .append

/-- One round for each element of a list. `G ys` is the value after the elements `ys`. -/
theorem iterateFlatMap {G : List α → β} {print : α → List χ} {xs : List α}
    (h : ∀ ys, ∀ x ∈ xs, Prints lex Anything (print x) (B (G ys)) (G (ys ++ [x]))) :
    Prints lex Anything (xs.flatMap print) (Lang.iterate B (G [])) (G xs) := by
  suffices hfrom : ∀ ys, Prints lex Anything (xs.flatMap print) (Lang.iterate B (G ys))
      (G (ys ++ xs)) from hfrom []
  induction xs with
  | nil =>
    intro ys
    rw [List.append_nil]
    exact iterateNil
  | cons x xs ih =>
    intro ys
    have hx := h ys x List.mem_cons_self
    have hxs := ih (fun zs z hz => h zs z (List.mem_cons_of_mem _ hz)) (ys ++ [x])
    rw [List.append_assoc] at hxs
    exact hx.iterateOne.iterateAppend hxs fun _ _ => trivial

/-- Rounds for each element of a list, with a text in between that means nothing. -/
theorem iterateSeparatedBy {G : List α → β} {print : α → List χ} {blank : List χ} {xs : List α}
    (hblank : ∀ r, lex (blank ++ r) = lex r)
    (h : ∀ ys x zs, xs = ys ++ x :: zs →
      Prints lex Anything (print x) (Lang.iterate B (G ys)) (G (ys ++ [x]))) :
    Prints lex Anything (separatedBy blank print xs) (Lang.iterate B (G [])) (G xs) := by
  suffices hfrom : ∀ zs ys, xs = ys ++ zs → Prints lex Anything (separatedBy blank print zs)
      (Lang.iterate B (G ys)) (G xs) from hfrom xs [] rfl
  intro zs
  induction zs using separatedBy.induct with
  | case1 =>
    intro ys hxs
    rw [hxs, List.append_nil]
    exact iterateNil
  | case2 x =>
    intro ys hxs
    rw [hxs]
    exact h ys x [] hxs
  | case3 x zs hne ih =>
    intro ys hxs
    have hx := h ys x zs hxs
    have hzs := ih (ys ++ [x]) (by rw [hxs, List.append_assoc, List.singleton_append])
    rw [separatedBy_cons hne]
    exact hx.iterateAppend (hzs.skip hblank) fun _ _ => trivial

/-- Items with separators between them, and none behind the last. -/
theorem sepBySeparatedBy {I : β → Lang τ β} {M : Lang τ Unit} {G : List α → β}
    {print : α → List χ} {sep : List χ} {xs : List α} (hsep : Prints lex Anything sep M ())
    (hE : ∀ r, E (sep ++ r))
    (h : ∀ ys, ∀ x ∈ xs, Prints lex E (print x) (I (G ys)) (G (ys ++ [x]))) :
    Prints lex E (separatedBy sep print xs) (Lang.sepBy M I (G [])) (G xs) := by
  suffices hfrom : ∀ ys, Prints lex E (separatedBy sep print xs) (Lang.sepBy M I (G ys))
      (G (ys ++ xs)) from hfrom []
  induction xs using separatedBy.induct with
  | case1 =>
    intro ys
    rw [List.append_nil]
    exact ⟨[], .done _, fun _ _ => rfl⟩
  | case2 x =>
    intro ys
    exact (h ys x List.mem_cons_self).lang fun _ => .last
  | case3 x xs hne ih =>
    intro ys
    have hx := h ys x List.mem_cons_self
    have hxs := ih (fun zs z hz => h zs z (List.mem_cons_of_mem _ hz)) (ys ++ [x])
    rw [List.append_assoc] at hxs
    have hrest : Prints lex E (sep ++ separatedBy sep print xs)
        (M >>= fun _ => Lang.sepBy M I (G (ys ++ [x]))) (G (ys ++ ([x] ++ xs))) := hsep.andThen hxs
    rw [separatedBy_cons hne]
    refine hx.combine hrest (fun r _ => ?_) ?_
    · rw [List.append_assoc]
      exact hE _
    · rintro ts _ hts ⟨_, ss, us, rfl, hss, hus⟩
      exact .step hts hss hus

end Repetition

end Prints

end Grammar
