import Sidlc.Library.Grammar

/-!
# Where a parser fails on a bad token

Some tokens can be repaired (`repairs t t'`: with `t'` in its place, `t` would have been taken).
Such a token breaks a text of the language `L` when the text is, up to that token, the beginning of
a sentence in which the repaired token comes next (`Lang.Breaks`).

`Decides` adds to `Recognizes` that the parser fails in a way that is not benign exactly on the
texts that are broken. The rules are those of `Recognizes`; what follows a part must have sentences
at all (`Lang.Productive`), since a sentence of the part cannot be completed otherwise.
-/

namespace Grammar

open StateExcept

variable {σ τ ε α β γ : Type}

namespace Lang

/-! ### Languages with sentences -/

/-- Something is a sentence. -/
class Productive (L : Lang τ α) : Prop where
  exists_sentence : ∃ ts a, L ts a

instance (a : α) : Productive (pure a : Lang τ α) :=
  ⟨[], a, rfl, rfl⟩

instance {L : Lang τ α} {f : α → Lang τ β} [hL : Productive L] [hf : ∀ a, Productive (f a)] :
    Productive (L >>= f) := by
  obtain ⟨xs, a, ha⟩ := hL.exists_sentence
  obtain ⟨ys, b, hb⟩ := (hf a).exists_sentence
  exact ⟨xs ++ ys, b, a, xs, ys, rfl, ha, hb⟩

instance {L M : Lang τ α} [hL : Productive L] : Productive (L.or M) := by
  obtain ⟨ts, a, ha⟩ := hL.exists_sentence
  exact ⟨ts, a, .inl ha⟩

instance {L M : Lang τ α} [hM : Productive M] : Productive (L.or M) := by
  obtain ⟨ts, a, ha⟩ := hM.exists_sentence
  exact ⟨ts, a, .inr ha⟩

instance {body : β → Lang τ β} {b : β} : Productive (iterate body b) :=
  ⟨[], b, .done b⟩

instance {sep : Lang τ Unit} {item : β → Lang τ β} {b : β} : Productive (sepBy sep item b) :=
  ⟨[], b, .done b⟩

theorem productive_terminal {value : τ → Option α} {t : τ} {a : α} (h : value t = some a) :
    Productive (terminal value) :=
  ⟨[t], a, t, rfl, h⟩

/-! ### Broken texts -/

variable {repairs : τ → τ → Prop}

/-- A token that could be repaired stands where the repaired token goes on with a sentence. -/
def Breaks (repairs : τ → τ → Prop) (L : Lang τ α) (ts : List τ) : Prop :=
  ∃ xs t us t' ys a, ts = xs ++ t :: us ∧ repairs t t' ∧ L (xs ++ t' :: ys) a

theorem Breaks.congr {L M : Lang τ α} (hLM : ∀ ts a, L ts a ↔ M ts a) {ts : List τ} :
    L.Breaks repairs ts ↔ M.Breaks repairs ts := by
  unfold Breaks
  simp only [hLM]

theorem not_breaks_nil {L : Lang τ α} : ¬ L.Breaks repairs [] := by
  rintro ⟨xs, t, us, _, _, _, hts, -⟩
  exact absurd (congrArg List.length hts) (by simp)

theorem not_breaks_pure (a : α) (ts : List τ) : ¬ (pure a : Lang τ α).Breaks repairs ts := by
  rintro ⟨xs, _, _, t', ys, _, -, -, hnil, -⟩
  exact absurd (congrArg List.length hnil) (by simp)

theorem breaks_terminal_cons_iff {value : τ → Option α} {t : τ} {us : List τ} :
    (terminal value).Breaks repairs (t :: us) ↔ ∃ t', repairs t t' ∧ (value t').isSome := by
  constructor
  · rintro ⟨xs, u, us', t', ys, a, hts, hrepairs, t'', hsentence, ha⟩
    cases xs with
    | nil =>
      obtain ⟨rfl, -⟩ := List.cons.inj hts
      obtain ⟨rfl, -⟩ := List.cons.inj hsentence
      exact ⟨t', hrepairs, Option.isSome_of_eq_some ha⟩
    | cons x xs =>
      have hlength := congrArg List.length hsentence
      rw [List.cons_append, List.length_cons, List.length_append, List.length_cons,
        List.length_singleton] at hlength
      omega
  · rintro ⟨t', hrepairs, hsome⟩
    obtain ⟨a, ha⟩ := Option.isSome_iff_exists.1 hsome
    exact ⟨[], t, us, t', [], a, rfl, hrepairs, t', rfl, ha⟩

theorem breaks_or_iff {L M : Lang τ α} {ts : List τ} :
    (L.or M).Breaks repairs ts ↔ L.Breaks repairs ts ∨ M.Breaks repairs ts := by
  constructor
  · rintro ⟨xs, t, us, t', ys, a, hts, hrepairs, ha | ha⟩
    · exact .inl ⟨xs, t, us, t', ys, a, hts, hrepairs, ha⟩
    · exact .inr ⟨xs, t, us, t', ys, a, hts, hrepairs, ha⟩
  · rintro (⟨xs, t, us, t', ys, a, hts, hrepairs, ha⟩ | ⟨xs, t, us, t', ys, a, hts, hrepairs, ha⟩)
    · exact ⟨xs, t, us, t', ys, a, hts, hrepairs, .inl ha⟩
    · exact ⟨xs, t, us, t', ys, a, hts, hrepairs, .inr ha⟩

/-- The bad token belongs to the first part, or a sentence of the first part comes before it. -/
theorem breaks_bind {L : Lang τ α} {f : α → Lang τ β} {ts : List τ}
    (h : (L >>= f).Breaks repairs ts) :
    L.Breaks repairs ts ∨ ∃ xs us a, ts = xs ++ us ∧ L xs a ∧ (f a).Breaks repairs us := by
  obtain ⟨xs, t, us, t', ys, b, rfl, hrepairs, a, zs, ws, hsplit, ha, hb⟩ := h
  rcases List.append_eq_append_iff.1 hsplit with ⟨vs, rfl, hrest⟩ | ⟨vs, rfl, hrest⟩
  · cases vs with
    | nil =>
      refine .inr ⟨xs, t :: us, a, rfl, by rwa [List.append_nil] at ha, ?_⟩
      exact ⟨[], t, us, t', ys, b, rfl, hrepairs, by rwa [List.nil_append, hrest]⟩
    | cons v vs =>
      obtain ⟨rfl, -⟩ := List.cons.inj hrest
      exact .inl ⟨xs, t, us, t', vs, a, rfl, hrepairs, ha⟩
  · refine .inr ⟨zs, vs ++ t :: us, a, by rw [List.append_assoc], ha, ?_⟩
    exact ⟨vs, t, us, t', ys, b, rfl, hrepairs, by rwa [← hrest]⟩

theorem Breaks.bind {L : Lang τ α} {ts : List τ} (h : L.Breaks repairs ts) (f : α → Lang τ β)
    [hf : ∀ a, Productive (f a)] : (L >>= f).Breaks repairs ts := by
  obtain ⟨xs, t, us, t', ys, a, rfl, hrepairs, ha⟩ := h
  obtain ⟨zs, b, hb⟩ := (hf a).exists_sentence
  refine ⟨xs, t, us, t', ys ++ zs, b, rfl, hrepairs, a, xs ++ t' :: ys, zs, ?_, ha, hb⟩
  rw [List.append_assoc, List.cons_append]

theorem Breaks.of_bind {L : Lang τ α} {f : α → Lang τ β} {xs us : List τ} {a : α} (ha : L xs a)
    (h : (f a).Breaks repairs us) : (L >>= f).Breaks repairs (xs ++ us) := by
  obtain ⟨zs, t, vs, t', ys, b, rfl, hrepairs, hb⟩ := h
  refine ⟨xs ++ zs, t, vs, t', ys, b, by rw [List.append_assoc], hrepairs, a, xs, zs ++ t' :: ys,
    by rw [List.append_assoc], ha, hb⟩

theorem breaks_bind_iff {L : Lang τ α} {f : α → Lang τ β} [∀ a, Productive (f a)] {ts : List τ} :
    (L >>= f).Breaks repairs ts ↔
      L.Breaks repairs ts ∨ ∃ xs us a, ts = xs ++ us ∧ L xs a ∧ (f a).Breaks repairs us := by
  constructor
  · exact breaks_bind
  · rintro (h | ⟨xs, us, a, rfl, ha, h⟩)
    · exact h.bind f
    · exact .of_bind ha h

/-- A broken text begins like the sentences do. -/
theorem Breaks.starts {L : Lang τ α} {p : τ → Prop} (hL : L.Starts p)
    (hp : ∀ t t', repairs t t' → (p t ↔ p t')) {t : τ} {us : List τ}
    (h : L.Breaks repairs (t :: us)) : p t := by
  obtain ⟨xs, u, vs, t', ys, a, hts, hrepairs, ha⟩ := h
  obtain ⟨x, rest, hsentence, hx⟩ := hL _ a ha
  cases xs with
  | nil =>
    obtain ⟨rfl, -⟩ := List.cons.inj hts
    obtain ⟨rfl, -⟩ := List.cons.inj hsentence
    exact (hp t t' hrepairs).2 hx
  | cons y xs =>
    obtain ⟨rfl, -⟩ := List.cons.inj hts
    obtain ⟨rfl, -⟩ := List.cons.inj hsentence
    exact hx

/-- Rounds of `body`, before a broken one. -/
theorem breaks_iterate_iff {body : β → Lang τ β} {b : β} {ts : List τ} :
    (iterate body b).Breaks repairs ts ↔
      ∃ xs us b', ts = xs ++ us ∧ iterate body b xs b' ∧ (body b').Breaks repairs us := by
  constructor
  · rintro ⟨xs, t, us, t', ys, b', rfl, hrepairs, hb'⟩
    -- the round that holds the repaired token, by induction on the rounds
    generalize hzs : xs ++ t' :: ys = zs at hb'
    induction hb' generalizing xs with
    | done => exact absurd (congrArg List.length hzs) (by simp)
    | @step b b₁ b₂ ws vs hround hrest ih =>
      rcases List.append_eq_append_iff.1 hzs with ⟨ms, rfl, hms⟩ | ⟨ms, rfl, hms⟩
      · cases ms with
        | nil =>
          obtain ⟨xs', us', b', hts, hb', hbreaks⟩ := ih [] hms
          rw [List.append_nil] at hround
          refine ⟨xs ++ xs', us', b', ?_, .step hround hb', hbreaks⟩
          rw [List.append_assoc, ← hts, List.nil_append]
        | cons m ms =>
          obtain ⟨rfl, -⟩ := List.cons.inj hms
          exact ⟨[], xs ++ t :: us, b, rfl, .done b, xs, t, us, t', ms, b₁, rfl, hrepairs, hround⟩
      · obtain ⟨xs', us', b', hts, hb', hbreaks⟩ := ih ms hms.symm
        refine ⟨ws ++ xs', us', b', ?_, .step hround hb', hbreaks⟩
        rw [List.append_assoc, List.append_assoc, hts]
  · rintro ⟨xs, _, b', rfl, hb', zs, t, vs, t', ys, b'', rfl, hrepairs, hround⟩
    refine ⟨xs ++ zs, t, vs, t', ys, b'', by rw [List.append_assoc], hrepairs, ?_⟩
    have hrounds : iterate body b' (zs ++ t' :: ys) b'' := by
      have hlast := iterate.step hround (.done b'')
      rwa [List.append_nil] at hlast
    rw [List.append_assoc]
    exact hb'.append hrounds

end Lang

/-! ### Parsers that fail there -/

/-- The parser fails in a way that is not benign. -/
def Escapes (benign : ε → Prop) (x : StateT σ (Except ε) α) (s : σ) : Prop :=
  ∃ e, x s = .error e ∧ ¬ benign e

section Escapes

variable {benign : ε → Prop}

theorem not_escapes_of_ok {x : StateT σ (Except ε) α} {s s' : σ} {a : α} (h : x s = .ok (a, s')) :
    ¬ Escapes benign x s := by
  rintro ⟨e, he, -⟩
  exact absurd (h.symm.trans he) (by simp)

theorem escapes_iff_of_error {x : StateT σ (Except ε) α} {s : σ} {e : ε} (h : x s = .error e) :
    Escapes benign x s ↔ ¬ benign e := by
  constructor
  · rintro ⟨e', he', hescapes⟩
    obtain rfl : e = e' := Except.error.inj (h.symm.trans he')
    exact hescapes
  · exact fun hescapes => ⟨e, h, hescapes⟩

theorem escapes_bind_iff {x : StateT σ (Except ε) α} {f : α → StateT σ (Except ε) β} {s : σ} :
    Escapes benign (x >>= f) s ↔
      Escapes benign x s ∨ ∃ a s', x s = .ok (a, s') ∧ Escapes benign (f a) s' := by
  constructor
  · rintro ⟨e, he, hescapes⟩
    rcases bind_error.1 he with hxa | ⟨a, s', hxa, hfe⟩
    · exact .inl ⟨e, hxa, hescapes⟩
    · exact .inr ⟨a, s', hxa, e, hfe, hescapes⟩
  · rintro (⟨e, hxa, hescapes⟩ | ⟨a, s', hxa, e, hfe, hescapes⟩)
    · exact ⟨e, bind_error.2 (.inl hxa), hescapes⟩
    · exact ⟨e, bind_error.2 (.inr ⟨a, s', hxa, hfe⟩), hescapes⟩

end Escapes

/-- The parser recognizes the sentences of `L` that come next, and its failures that are not benign
are those on broken texts. -/
structure DecidesAt (S : TokenStream σ τ) (good : τ → Prop) (repairs : τ → τ → Prop)
    (benign : ε → Prop) (x : StateT σ (Except ε) α) (L : Lang τ α) (s : σ) : Prop
    extends RecognizesAt S good benign x L s where
  escapes_iff : Escapes benign x s ↔ L.Breaks repairs (S.ahead s)

/-- The parser decides `L` from every valid state. -/
def Decides (S : TokenStream σ τ) (good : τ → Prop) (repairs : τ → τ → Prop) (benign : ε → Prop)
    (x : StateT σ (Except ε) α) (L : Lang τ α) : Prop :=
  ∀ s, S.valid s → DecidesAt S good repairs benign x L s

variable {S : TokenStream σ τ} {good : τ → Prop} {repairs : τ → τ → Prop} {benign : ε → Prop}

namespace DecidesAt

theorem congr {x y : StateT σ (Except ε) α} {L M : Lang τ α} {s : σ}
    (h : DecidesAt S good repairs benign x L s) (hxy : y s = x s) (hLM : ∀ ts a, L ts a ↔ M ts a) :
    DecidesAt S good repairs benign y M s where
  toRecognizesAt := h.toRecognizesAt.congr hxy hLM
  escapes_iff := by
    rw [Escapes, hxy, ← Lang.Breaks.congr hLM]
    exact h.escapes_iff

protected theorem pure (a : α) (s : σ) :
    DecidesAt S good repairs benign (pure a : StateT σ (Except ε) α) (pure a) s where
  toRecognizesAt := .pure a s
  escapes_iff := iff_of_false (not_escapes_of_ok rfl) (Lang.not_breaks_pure a _)

/-- A parser that takes the next token if it has a value; what could be repaired is not good, and
has none. -/
theorem terminal {x : StateT σ (Except ε) α} {value : τ → Option α} {s : σ}
    (hsome : ∀ t us a, S.ahead s = t :: us → value t = some a → x s = .ok (a, S.next s))
    (hnone : ∀ t us, S.ahead s = t :: us → value t = none → ∃ e, x s = .error e ∧
      (good t → benign e) ∧ (benign e ↔ ∀ t', repairs t t' → value t' = none))
    (hnil : S.ahead s = [] → ∃ e, x s = .error e ∧ benign e)
    (hbad : ∀ t t', repairs t t' → (value t').isSome → value t = none) :
    DecidesAt S good repairs benign x (Lang.terminal value) s where
  toRecognizesAt := by
    refine RecognizesAt.terminal hsome (fun t us hs hval => ?_) hnil
    obtain ⟨e, he, hgood, -⟩ := hnone t us hs hval
    exact ⟨e, he, hgood⟩
  escapes_iff := by
    cases hs : S.ahead s with
    | nil =>
      obtain ⟨e, he, hbenign⟩ := hnil hs
      rw [escapes_iff_of_error he]
      exact iff_of_false (not_not.2 hbenign) Lang.not_breaks_nil
    | cons t us =>
      rw [Lang.breaks_terminal_cons_iff]
      cases hval : value t with
      | some a =>
        refine iff_of_false (not_escapes_of_ok (hsome t us a hs hval)) ?_
        rintro ⟨t', hrepairs, hsome'⟩
        exact absurd ((hbad t t' hrepairs hsome').symm.trans hval) (by simp)
      | none =>
        obtain ⟨e, he, -, hbenign⟩ := hnone t us hs hval
        rw [escapes_iff_of_error he, hbenign]
        simp only [not_forall, Option.isSome_iff_ne_none, exists_prop, ne_eq]

protected theorem bind {x : StateT σ (Except ε) α} {f : α → StateT σ (Except ε) β} {L : Lang τ α}
    {M : α → Lang τ β} [∀ a, (M a).Productive] {s : σ} (hv : S.valid s)
    (hx : DecidesAt S good repairs benign x L s)
    (hf : ∀ a s', x s = .ok (a, s') → S.valid s' → DecidesAt S good repairs benign (f a) (M a) s') :
    DecidesAt S good repairs benign (x >>= f) (L >>= M) s where
  toRecognizesAt := hx.toRecognizesAt.bind hv fun a s' h hv' => (hf a s' h hv').toRecognizesAt
  escapes_iff := by
    rw [escapes_bind_iff, Lang.breaks_bind_iff, hx.escapes_iff]
    refine or_congr_right ?_
    constructor
    · rintro ⟨a, s', hxa, hescapes⟩
      obtain ⟨xs, ha, hs, -, hv'⟩ := hx.of_ok hv hxa
      exact ⟨xs, S.ahead s', a, hs, ha, (hf a s' hxa hv').escapes_iff.1 hescapes⟩
    · rintro ⟨xs, us, a, hs, ha, hbreaks⟩
      have hxa := hx.ok hs ha
      rw [← S.ahead_after_of_prefix hv hs] at hbreaks
      exact ⟨a, _, hxa, (hf a _ hxa (S.valid_after _ hv)).escapes_iff.2 hbreaks⟩

/-- A decision on the next token, which a repair does not change. -/
theorem branch {c : Prop} [Decidable c] {p : τ → Prop} (hrep : ∀ t t', repairs t t' → (p t ↔ p t'))
    {x y : StateT σ (Except ε) α} {L M : Lang τ α} {s : σ}
    (hp : ∀ t us, S.ahead s = t :: us → (c ↔ p t))
    (hx : c → DecidesAt S good repairs benign x L s) (hL : L.Starts p)
    (hy : ¬ c → DecidesAt S good repairs benign y M s) (hM : M.Starts fun t => ¬ p t) :
    DecidesAt S good repairs benign (if c then x else y) (L.or M) s where
  toRecognizesAt := RecognizesAt.branch hp (fun hc => (hx hc).toRecognizesAt) hL
    (fun hc => (hy hc).toRecognizesAt) hM
  escapes_iff := by
    have hc_of (h : L.Breaks repairs (S.ahead s)) : c := by
      cases hs : S.ahead s with
      | nil => exact absurd (hs ▸ h) Lang.not_breaks_nil
      | cons t us =>
        rw [hs] at h
        exact (hp t us hs).2 (h.starts hL hrep)
    have hnc_of (h : M.Breaks repairs (S.ahead s)) : ¬ c := by
      cases hs : S.ahead s with
      | nil => exact absurd (hs ▸ h) Lang.not_breaks_nil
      | cons t us =>
        rw [hs] at h
        have hpt : ¬ p t := h.starts hM fun t t' ht => not_congr (hrep t t' ht)
        exact fun hc => hpt ((hp t us hs).1 hc)
    rw [Lang.breaks_or_iff]
    by_cases hc : c
    · rw [if_pos hc, (hx hc).escapes_iff, or_iff_left fun h => hnc_of h hc]
    · rw [if_neg hc, (hy hc).escapes_iff, or_iff_right fun h => hc (hc_of h)]

/-- A decision on the next token, with only one choice that can succeed. -/
theorem check {c : Prop} [Decidable c] {p : τ → Prop} (hrep : ∀ t t', repairs t t' → (p t ↔ p t'))
    {x y : StateT σ (Except ε) α} {L : Lang τ α} {s : σ}
    (hp : ∀ t us, S.ahead s = t :: us → (c ↔ p t))
    (hx : c → DecidesAt S good repairs benign x L s) (hL : L.Starts p)
    (hy : ∃ e, y s = .error e ∧ benign e) :
    DecidesAt S good repairs benign (if c then x else y) L s := by
  obtain ⟨e, he, hbenign⟩ := hy
  have hfail : DecidesAt S good repairs benign y (fun _ _ => False) s := by
    refine ⟨⟨fun a s' => by simp [he], fun e' _ h => ?_⟩, ?_⟩
    · obtain rfl : e = e' := by simpa [he] using h
      exact hbenign
    · rw [escapes_iff_of_error he]
      refine iff_of_false (not_not.2 hbenign) ?_
      rintro ⟨_, _, _, _, _, _, _, _, h⟩
      exact h
  refine (branch hrep hp hx hL (fun _ => hfail) fun _ _ h => h.elim).congr rfl fun ts a => ?_
  exact ⟨fun h => h.elim id False.elim, .inl⟩

end DecidesAt

namespace Decides

theorem recognizes {x : StateT σ (Except ε) α} {L : Lang τ α}
    (h : Decides S good repairs benign x L) : Recognizes S good benign x L :=
  fun s hv => (h s hv).toRecognizesAt

protected theorem pure (a : α) :
    Decides S good repairs benign (pure a : StateT σ (Except ε) α) (pure a) :=
  fun s _ => DecidesAt.pure a s

protected theorem bind {x : StateT σ (Except ε) α} {f : α → StateT σ (Except ε) β} {L : Lang τ α}
    {M : α → Lang τ β} [∀ a, (M a).Productive] (hx : Decides S good repairs benign x L)
    (hf : ∀ a, Decides S good repairs benign (f a) (M a)) :
    Decides S good repairs benign (x >>= f) (L >>= M) :=
  fun s hv => (hx s hv).bind hv fun a s' _ => hf a s'

/-! ### Loops -/

section Loops

variable {c : σ → Prop} [DecidablePred c] {p : τ → Prop}
  (hp : ∀ s t us, S.ahead s = t :: us → (c s ↔ p t))
  (hrep : ∀ t t', repairs t t' → (p t ↔ p t'))
include hp hrep

/-- **Loops that do not end**: a loop escapes where, after some rounds, another one does, or what
comes after the loop. The rounds that escape may be those of a wider language `T`. -/
theorem escapes_loop_iff {body : β → StateT σ (Except ε) β} {B : β → Lang τ β}
    (hbody : ∀ b, Recognizes S good benign (body b) (B b)) (hB : ∀ b, (B b).Starts p)
    {T : β → Lang τ γ} (hT : ∀ b, (T b).Starts p)
    (hescapes : ∀ b s, S.valid s →
      (Escapes benign (body b) s ↔ (T b).Breaks repairs (S.ahead s)))
    {k : β → StateT σ (Except ε) α} {K : β → Lang τ α}
    (hk : ∀ b, Decides S good repairs benign (k b) (K b)) (hK : ∀ b, (K b).Starts fun t => ¬ p t)
    {rounds : σ → Nat} (hrounds : ∀ s, S.valid s → (S.ahead s).length < rounds s) (out : ε) (b : β)
    {s : σ} (hv : S.valid s) :
    Escapes benign ((fun s => loopWhile c body out (rounds s) b s) >>= k) s ↔
      ∃ xs us b', S.ahead s = xs ++ us ∧ Lang.iterate B b xs b' ∧
        ((T b').Breaks repairs us ∨ (K b').Breaks repairs us) := by
  have step (n : Nat) (s : σ) (hv : S.valid s) (b : β) (hn : (S.ahead s).length < n) :
      Escapes benign (loopWhile c body out n b >>= k) s ↔
        ∃ xs us b', S.ahead s = xs ++ us ∧ Lang.iterate B b xs b' ∧
          ((T b').Breaks repairs us ∨ (K b').Breaks repairs us) := by
    induction n generalizing s b with
    | zero => exact absurd hn (Nat.not_lt_zero _)
    | succ n ih =>
      rw [Escapes, loopWhile_bind]
      by_cases hc : c s
      · rw [if_pos hc]
        refine escapes_bind_iff.trans ?_
        rw [hescapes b s hv]
        constructor
        · rintro (h | ⟨b', s', hb', h⟩)
          · exact ⟨[], S.ahead s, b, rfl, .done b, .inl h⟩
          · have hlt := (hbody b s hv).length_lt hv (hB b) hb'
            obtain ⟨xs, hround, hs, -, hv'⟩ := (hbody b s hv).of_ok hv hb'
            obtain ⟨ys, us, b'', hs', hrest, h⟩ := (ih s' hv' b' (by omega)).1 h
            refine ⟨xs ++ ys, us, b'', ?_, .step hround hrest, h⟩
            rw [hs, hs', List.append_assoc]
        · rintro ⟨_, us, b'', hs, _ | @⟨_, b', _, xs, ys, hround, hrest⟩, h⟩
          · rw [List.nil_append] at hs
            rw [hs]
            refine .inl (h.resolve_right fun h => ?_)
            cases us with
            | nil => exact Lang.not_breaks_nil h
            | cons t us =>
              have hpt : ¬ p t := h.starts (hK b) fun t t' ht => not_congr (hrep t t' ht)
              exact hpt ((hp s t us hs).1 hc)
          · rw [List.append_assoc] at hs
            have hb' := (hbody b s hv).ok hs hround
            have hlt := (hbody b s hv).length_lt hv (hB b) hb'
            have hs' := S.ahead_after_of_prefix hv hs
            exact .inr ⟨b', _, hb', (ih _ (S.valid_after _ hv) b' (by omega)).2
              ⟨ys, us, b'', hs', hrest, h⟩⟩
      · rw [if_neg hc]
        refine (hk b s hv).escapes_iff.trans ?_
        constructor
        · exact fun h => ⟨[], S.ahead s, b, rfl, .done b, .inr h⟩
        · rintro ⟨_, us, b'', hs, _ | @⟨_, b', _, xs, ys, hround, hrest⟩, h⟩
          · rw [List.nil_append] at hs
            rw [hs]
            refine h.resolve_left fun h => ?_
            cases us with
            | nil => exact Lang.not_breaks_nil h
            | cons t us => exact hc ((hp s t us hs).2 (h.starts (hT b) hrep))
          · obtain ⟨t, rest, rfl, ht⟩ := hB b xs b' hround
            exact absurd ((hp s t _ hs).2 ht) hc
  exact step (rounds s) s hv b (hrounds s hv)

/-- A loop decided by the next token, with enough rounds for the tokens that are left. -/
theorem loop {body : β → StateT σ (Except ε) β} {B : β → Lang τ β}
    (hbody : ∀ b, Decides S good repairs benign (body b) (B b)) (hB : ∀ b, (B b).Starts p)
    {k : β → StateT σ (Except ε) α} {K : β → Lang τ α} [∀ b, (K b).Productive]
    (hk : ∀ b, Decides S good repairs benign (k b) (K b)) (hK : ∀ b, (K b).Starts fun t => ¬ p t)
    {rounds : σ → Nat} (hrounds : ∀ s, S.valid s → (S.ahead s).length < rounds s) (out : ε)
    (b : β) :
    Decides S good repairs benign ((fun s => loopWhile c body out (rounds s) b s) >>= k)
      (Lang.iterate B b >>= K) := by
  intro s hv
  have hrec := Recognizes.loop hp (fun b => (hbody b).recognizes) hB (fun b => (hk b).recognizes) hK
    hrounds out b s hv
  refine ⟨hrec, ?_⟩
  rw [escapes_loop_iff hp hrep (fun b => (hbody b).recognizes) hB hB
    (fun b s hv => (hbody b s hv).escapes_iff) hk hK hrounds out b hv, Lang.breaks_bind_iff,
    Lang.breaks_iterate_iff]
  constructor
  · rintro ⟨xs, us, b', hs, hb', h | h⟩
    · exact .inl ⟨xs, us, b', hs, hb', h⟩
    · exact .inr ⟨xs, us, b', hs, hb', h⟩
  · rintro (⟨xs, us, b', hs, hb', h⟩ | ⟨xs, us, b', hs, hb', h⟩)
    · exact ⟨xs, us, b', hs, hb', .inl h⟩
    · exact ⟨xs, us, b', hs, hb', .inr h⟩

/-- A loop that expects a separator after every item that is not the last, and allows one there. -/
theorem sepLoop {item : β → StateT σ (Except ε) β} {I : β → Lang τ β}
    (hitem : ∀ b, Decides S good repairs benign (item b) (I b)) (hI : ∀ b, (I b).Starts p)
    {sep : StateT σ (Except ε) Unit} {M : Lang τ Unit} (hsep : Decides S good repairs benign sep M)
    (hM : M.Starts p) {k : β → StateT σ (Except ε) α} {K : β → Lang τ α} [∀ b, (K b).Productive]
    (hk : ∀ b, Decides S good repairs benign (k b) (K b)) (hK : ∀ b, (K b).Starts fun t => ¬ p t)
    {rounds : σ → Nat} (hrounds : ∀ s, S.valid s → (S.ahead s).length < rounds s) (out : ε)
    (b : β) :
    Decides S good repairs benign
      ((fun s => loopWhile c (separated c sep item) out (rounds s) b s) >>= k)
      (Lang.sepBy M I b >>= K) := by
  have step (n : Nat) (s : σ) (hv : S.valid s) (b : β) (hn : (S.ahead s).length < n) :
      DecidesAt S good repairs benign (loopWhile c (separated c sep item) out n b >>= k)
        (Lang.sepBy M I b >>= K) s := by
    induction n generalizing s b with
    | zero => exact absurd hn (Nat.not_lt_zero _)
    | succ n ih =>
      refine (DecidesAt.branch hrep (hp s) (fun _ => (hitem b s hv).bind (f := fun b' =>
        onlyIf c sep >>= fun _ => loopWhile c (separated c sep item) out n b' >>= k) hv
          fun b' s' hb' hv' => ?_)
        ((hI b).bind _) (fun _ => hk b s hv) (hK b)).congr ?_ Lang.sepBy_bind_iff
      · have hlt := (hitem b s hv).length_lt hv (hI b) hb'
        refine (DecidesAt.branch (y := loopWhile c (separated c sep item) out n b' >>= k) hrep
          (hp s') (fun _ => (hsep s' hv').bind hv' fun _ s'' hs'' hv'' => ih s'' hv'' b' ?_)
          (hM.bind _)
          (fun hc => ?_) (hK b')).congr ?_ fun _ _ => Iff.rfl
        · have := (hsep s' hv').length_le hv' hs''
          omega
        · -- without a separator the loop is over, whatever rounds are left
          obtain ⟨m, rfl⟩ : ∃ m, n = m + 1 := ⟨n - 1, by omega⟩
          refine (hk b' s' hv').congr ?_ fun _ _ => Iff.rfl
          rw [loopWhile_bind, if_neg hc]
        · rw [onlyIf_bind]
          split_ifs <;> rfl
      · rw [loopWhile_bind, separated_bind]
        split_ifs <;> rfl
  exact fun s hv => (step (rounds s) s hv b (hrounds s hv)).congr rfl fun _ _ => Iff.rfl

end Loops

end Decides

end Grammar
