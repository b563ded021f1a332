import Mathlib.Data.List.Chain
import Mathlib.Logic.Function.Iterate
import Sidlc.Library.StateExcept

/-!
# Grammars and the parsers that recognize them

A language (`Lang`) says which token sequences denote which values. Languages form a monad, so a
production is written like the parser for it, without any lookahead or loop bounds.

A parser runs on the states of a `TokenStream`. `Recognizes` says that it succeeds exactly on the
states whose next tokens are a sentence of the language, returns the value the sentence denotes and
moves over the sentence, and that it fails in no other way than a benign one. The rules take the
usual steps of recursive descent: sequences (`Recognizes.bind`), decisions on the next token
(`RecognizesAt.branch`) and loops (`Recognizes.loop`).
-/

namespace Grammar

open StateExcept

variable {σ τ ε α β γ δ : Type}

/-! ### Languages -/

/-- Which token sequences denote which values. -/
def Lang (τ α : Type) : Type :=
  List τ → α → Prop

@[ext]
theorem Lang.ext {L M : Lang τ α} (h : ∀ ts a, L ts a ↔ M ts a) : L = M :=
  funext fun ts => funext fun a => propext (h ts a)

instance : Monad (Lang τ) where
  pure a := fun ts b => ts = [] ∧ b = a
  bind L f := fun ts b => ∃ a xs ys, ts = xs ++ ys ∧ L xs a ∧ f a ys b

theorem Lang.pure_iff {a b : α} {ts : List τ} : (pure a : Lang τ α) ts b ↔ ts = [] ∧ b = a :=
  Iff.rfl

instance : LawfulMonad (Lang τ) :=
  LawfulMonad.mk' (Lang τ)
    (by
      intro α L
      ext ts a
      constructor
      · rintro ⟨a', xs, _, rfl, hL, rfl, rfl⟩
        rw [List.append_nil]
        exact hL
      · intro hL
        exact ⟨a, ts, [], (List.append_nil ts).symm, hL, rfl, rfl⟩)
    (by
      intro α β a f
      ext ts b
      constructor
      · rintro ⟨_, _, ys, rfl, ⟨rfl, rfl⟩, hb⟩
        exact hb
      · intro hb
        exact ⟨a, [], ts, rfl, ⟨rfl, rfl⟩, hb⟩)
    (by
      intro α β γ L f g
      ext ts c
      constructor
      · rintro ⟨b, _, zs, rfl, ⟨a, xs, ys, rfl, ha, hb⟩, hc⟩
        exact ⟨a, xs, ys ++ zs, List.append_assoc .., ha, b, ys, zs, rfl, hb, hc⟩
      · rintro ⟨a, xs, _, rfl, ha, b, ys, zs, rfl, hb, hc⟩
        exact ⟨b, xs ++ ys, zs, (List.append_assoc ..).symm, ⟨a, xs, ys, rfl, ha, hb⟩, hc⟩)

theorem Lang.bind_pure_iff {L : Lang τ α} {f : α → β} {ts : List τ} {b : β} :
    (do let a ← L; return f a : Lang τ β) ts b ↔ ∃ a, L ts a ∧ b = f a := by
  constructor
  · rintro ⟨a, xs, _, rfl, ha, rfl, hb⟩
    rw [List.append_nil]
    exact ⟨a, ha, hb⟩
  · rintro ⟨a, ha, hb⟩
    exact ⟨a, ts, [], (List.append_nil ts).symm, ha, rfl, hb⟩

/-- A sentence with a beginning, a body and an end. -/
theorem Lang.enclosed_iff {L : Lang τ α} {M : α → Lang τ β} {N : Lang τ γ} {f : α → β → δ}
    {ts : List τ} {d : δ} :
    (do let a ← L; let b ← M a; let _ ← N; return f a b : Lang τ δ) ts d ↔
      ∃ a b c xs ys zs, ts = xs ++ (ys ++ zs) ∧ L xs a ∧ M a ys b ∧ N zs c ∧ d = f a b := by
  constructor
  · rintro ⟨a, xs, _, rfl, ha, b, ys, _, rfl, hb, c, zs, _, rfl, hc, rfl, hd⟩
    rw [List.append_nil]
    exact ⟨a, b, c, xs, ys, zs, rfl, ha, hb, hc, hd⟩
  · rintro ⟨a, b, c, xs, ys, zs, rfl, ha, hb, hc, hd⟩
    exact ⟨a, xs, _, rfl, ha, b, ys, _, rfl, hb, c, zs, [], (List.append_nil zs).symm, hc, rfl, hd⟩

namespace Lang

/-- One token, and the value it stands for. -/
def terminal (value : τ → Option α) : Lang τ α :=
  fun ts a => ∃ t, ts = [t] ∧ value t = some a

/-- Either of two languages. -/
def or (L M : Lang τ α) : Lang τ α :=
  fun ts a => L ts a ∨ M ts a

/-- Any number of rounds, each going on from the value of the one before. -/
inductive iterate (body : β → Lang τ β) : β → Lang τ β
  | done (b : β) : iterate body b [] b
  | step {b b' b'' : β} {xs ys : List τ} (hx : body b xs b') (hy : iterate body b' ys b'') :
      iterate body b (xs ++ ys) b''

theorem iterate.append {body : β → Lang τ β} {b b' b'' : β} {xs ys : List τ}
    (hx : iterate body b xs b') (hy : iterate body b' ys b'') : iterate body b (xs ++ ys) b'' := by
  induction hx with
  | done => exact hy
  | step hround _ ih =>
    rw [List.append_assoc]
    exact .step hround (ih hy)

/-- Rounds that collect what sentences of `L` denote. -/
theorem iterate_collect_iff {L : Lang τ α} {xs ys : List α} {ts : List τ} :
    iterate (fun xs => L >>= fun x => pure (xs ++ [x])) xs ts ys ↔
      ∃ ps : List (List τ × α), (∀ p ∈ ps, L p.1 p.2) ∧ ts = ps.flatMap Prod.fst ∧
        ys = xs ++ ps.map Prod.snd := by
  constructor
  · intro h
    induction h with
    | done xs => exact ⟨[], by simp, rfl, by simp⟩
    | step hx _ ih =>
      obtain ⟨x, us, _, rfl, hL, rfl, rfl⟩ := hx
      obtain ⟨ps, hps, rfl, rfl⟩ := ih
      exact ⟨(us, x) :: ps, List.forall_mem_cons.2 ⟨hL, hps⟩, by simp, by simp⟩
  · rintro ⟨ps, hps, rfl, rfl⟩
    induction ps generalizing xs with
    | nil =>
      rw [List.map_nil, List.append_nil]
      exact .done xs
    | cons p ps ih =>
      rw [List.forall_mem_cons] at hps
      have hround : (L >>= fun x => pure (xs ++ [x]) : Lang τ (List α)) p.1 (xs ++ [p.2]) :=
        ⟨p.2, p.1, [], (List.append_nil _).symm, hps.1, rfl, rfl⟩
      have hrest : iterate (fun xs => L >>= fun x => pure (xs ++ [x])) (xs ++ [p.2])
          (ps.flatMap Prod.fst) (xs ++ [p.2] ++ ps.map Prod.snd) := ih hps.2
      rw [List.append_assoc, List.singleton_append] at hrest
      rw [List.flatMap_cons, List.map_cons]
      exact .step hround hrest

theorem iterate_collect_cons {L : Lang τ α} {x : α} {xs : List α} {us vs : List τ} (hx : L us x)
    (hxs : iterate (fun xs => L >>= fun x => pure (xs ++ [x])) [] vs xs) :
    iterate (fun xs => L >>= fun x => pure (xs ++ [x])) [] (us ++ vs) (x :: xs) := by
  obtain ⟨ps, hps, rfl, rfl⟩ := iterate_collect_iff.1 hxs
  exact iterate_collect_iff.2 ⟨(us, x) :: ps, List.forall_mem_cons.2 ⟨hx, hps⟩, rfl, rfl⟩

theorem iterate_collect_append {L : Lang τ α} {xs ys : List α} {us vs : List τ}
    (hxs : iterate (fun xs => L >>= fun x => pure (xs ++ [x])) [] us xs)
    (hys : iterate (fun xs => L >>= fun x => pure (xs ++ [x])) [] vs ys) :
    iterate (fun xs => L >>= fun x => pure (xs ++ [x])) [] (us ++ vs) (xs ++ ys) := by
  obtain ⟨ps, hps, rfl, rfl⟩ := iterate_collect_iff.1 hxs
  obtain ⟨qs, hqs, rfl, rfl⟩ := iterate_collect_iff.1 hys
  exact iterate_collect_iff.2
    ⟨ps ++ qs, List.forall_mem_append.2 ⟨hps, hqs⟩, by simp, by simp⟩

/-- Any number of rounds with separators between them, and possibly one after the last. -/
inductive sepBy (sep : Lang τ Unit) (item : β → Lang τ β) : β → Lang τ β
  | done (b : β) : sepBy sep item b [] b
  | last {b b' : β} {xs : List τ} (hx : item b xs b') : sepBy sep item b xs b'
  | step {b b' b'' : β} {xs ss ys : List τ} (hx : item b xs b') (hs : sep ss ())
      (hy : sepBy sep item b' ys b'') : sepBy sep item b (xs ++ (ss ++ ys)) b''

/-- A loop before `K`: either a round and the loop again, or `K`. -/
theorem iterate_bind_iff {body : β → Lang τ β} {K : β → Lang τ α} {b : β} (ts : List τ) (a : α) :
    ((body b >>= fun b' => iterate body b' >>= K).or (K b)) ts a ↔ (iterate body b >>= K) ts a := by
  constructor
  · rintro (⟨b', xs, _, rfl, hx, b'', ys, zs, rfl, hy, hz⟩ | h)
    · exact ⟨b'', xs ++ ys, zs, by rw [List.append_assoc], .step hx hy, hz⟩
    · exact ⟨b, [], ts, rfl, .done b, h⟩
  · rintro ⟨b', xs, zs, rfl, hx | @⟨_, b'', _, xs, ys, hx, hy⟩, hz⟩
    · exact .inr hz
    · exact .inl ⟨b'', xs, ys ++ zs, by rw [List.append_assoc], hx, b', ys, zs, rfl, hy, hz⟩

/-- Separated items before `K`: none is left, or one with or without a separator behind it. -/
theorem sepBy_bind_iff {sep : Lang τ Unit} {item : β → Lang τ β} {K : β → Lang τ α} {b : β}
    (ts : List τ) (a : α) :
    ((item b >>= fun b' => (sep >>= fun _ => sepBy sep item b' >>= K).or (K b')).or (K b)) ts a ↔
      (sepBy sep item b >>= K) ts a := by
  constructor
  · rintro (⟨b', xs, _, rfl, hx, ⟨_, ss, _, rfl, hs, b'', ys, zs, rfl, hy, hz⟩ | hz⟩ | h)
    · exact ⟨b'', xs ++ (ss ++ ys), zs, by simp, .step hx hs hy, hz⟩
    · exact ⟨b', xs, _, rfl, .last hx, hz⟩
    · exact ⟨b, [], ts, rfl, .done b, h⟩
  · rintro ⟨b', _, zs, rfl, hx | hx | ⟨hx, hs, hy⟩, hz⟩
    · exact .inr hz
    · exact .inl ⟨_, _, _, rfl, hx, .inr hz⟩
    · exact .inl ⟨_, _, _, by simp, hx, .inl ⟨_, _, _, rfl, hs, _, _, _, rfl, hy, hz⟩⟩

/-- Every sentence has a first token, and it satisfies `p`. -/
def Starts (p : τ → Prop) (L : Lang τ α) : Prop :=
  ∀ ts a, L ts a → ∃ t us, ts = t :: us ∧ p t

theorem Starts.bind {p : τ → Prop} {L : Lang τ α} (h : Starts p L) (f : α → Lang τ β) :
    Starts p (L >>= f) := by
  rintro _ b ⟨a, xs, ys, rfl, hx, -⟩
  obtain ⟨t, us, rfl, ht⟩ := h xs a hx
  exact ⟨t, us ++ ys, rfl, ht⟩

theorem Starts.or {p : τ → Prop} {L M : Lang τ α} (hL : Starts p L) (hM : Starts p M) :
    Starts p (L.or M) := by
  rintro ts a (h | h)
  · exact hL ts a h
  · exact hM ts a h

theorem Starts.mono {p q : τ → Prop} {L : Lang τ α} (h : Starts p L) (hpq : ∀ t, p t → q t) :
    Starts q L := by
  intro ts a hts
  obtain ⟨t, us, rfl, ht⟩ := h ts a hts
  exact ⟨t, us, rfl, hpq t ht⟩

theorem starts_terminal {value : τ → Option α} {p : τ → Prop}
    (h : ∀ t a, value t = some a → p t) : Starts p (terminal value) := by
  rintro _ a ⟨t, rfl, ht⟩
  exact ⟨t, [], rfl, h t a ht⟩

/-- A sentence that begins with a terminal. -/
theorem terminal_bind_cons_iff {value : τ → Option α} {f : α → Lang τ β} {t : τ} {ts : List τ}
    {b : β} : (terminal value >>= f) (t :: ts) b ↔ ∃ a, value t = some a ∧ f a ts b := by
  constructor
  · rintro ⟨a, _, ys, hts, ⟨u, rfl, hu⟩, hb⟩
    obtain ⟨rfl, rfl⟩ := List.cons.inj hts
    exact ⟨a, hu, hb⟩
  · rintro ⟨a, ha, hb⟩
    exact ⟨a, [t], ts, rfl, ⟨t, rfl, ha⟩, hb⟩

/-! ### Sentences of a fixed length -/

/-- Every sentence has `n` tokens. -/
def HasLength (n : Nat) (L : Lang τ α) : Prop :=
  ∀ ts a, L ts a → ts.length = n

theorem hasLength_pure (a : α) : HasLength 0 (pure a : Lang τ α) := by
  rintro _ _ ⟨rfl, -⟩
  rfl

theorem HasLength.terminal_bind {value : τ → Option α} {f : α → Lang τ β} {n : Nat}
    (hf : ∀ a, HasLength n (f a)) : HasLength (n + 1) (terminal value >>= f) := by
  rintro _ b ⟨a, _, ys, rfl, ⟨t, rfl, -⟩, hb⟩
  rw [List.singleton_append, List.length_cons, hf a ys b hb]

/-- A sentence is cut where its second part has a fixed length. -/
theorem bind_append_iff {L : Lang τ α} {f : α → Lang τ β} {n : Nat} (hf : ∀ a, HasLength n (f a))
    {xs ys : List τ} (hys : ys.length = n) {b : β} :
    (L >>= f) (xs ++ ys) b ↔ ∃ a, L xs a ∧ f a ys b := by
  constructor
  · rintro ⟨a, xs', ys', heq, ha, hb⟩
    obtain ⟨rfl, rfl⟩ := List.append_inj' heq (hys.trans (hf a ys' b hb).symm)
    exact ⟨a, ha, hb⟩
  · rintro ⟨a, ha, hb⟩
    exact ⟨a, xs, ys, rfl, ha, hb⟩

/-! ### What sentences consist of -/

/-- Every token of a sentence satisfies `p`. -/
def Within (p : τ → Prop) (L : Lang τ α) : Prop :=
  ∀ ts a, L ts a → ∀ t ∈ ts, p t

section Within

variable {p : τ → Prop}

theorem within_terminal {value : τ → Option α} (h : ∀ t a, value t = some a → p t) :
    Within p (terminal value) := by
  rintro _ a ⟨t, rfl, ht⟩
  rw [List.forall_mem_singleton]
  exact h t a ht

protected theorem Within.pure (a : α) : Within p (pure a : Lang τ α) := by
  rintro _ _ ⟨rfl, rfl⟩
  exact List.forall_mem_nil _

protected theorem Within.bind {L : Lang τ α} {f : α → Lang τ β} (hL : Within p L)
    (hf : ∀ a, Within p (f a)) : Within p (L >>= f) := by
  rintro _ b ⟨a, xs, ys, rfl, hx, hy⟩
  rw [List.forall_mem_append]
  exact ⟨hL xs a hx, hf a ys b hy⟩

protected theorem Within.or {L M : Lang τ α} (hL : Within p L) (hM : Within p M) :
    Within p (L.or M) := by
  rintro ts a (h | h)
  · exact hL ts a h
  · exact hM ts a h

protected theorem Within.iterate {body : β → Lang τ β} (h : ∀ b, Within p (body b)) (b : β) :
    Within p (iterate body b) := by
  intro ts b' hts
  induction hts with
  | done => exact List.forall_mem_nil _
  | step hx _ ih =>
    rw [List.forall_mem_append]
    exact ⟨h _ _ _ hx, ih⟩

protected theorem Within.sepBy {sep : Lang τ Unit} {item : β → Lang τ β} (hsep : Within p sep)
    (h : ∀ b, Within p (item b)) (b : β) : Within p (sepBy sep item b) := by
  intro ts b' hts
  induction hts with
  | done => exact List.forall_mem_nil _
  | last hx => exact h _ _ _ hx
  | step hx hs _ ih =>
    rw [List.forall_mem_append, List.forall_mem_append]
    exact ⟨h _ _ _ hx, hsep _ _ hs, ih⟩

end Within

/-! ### What sentences denote -/

/-- What the sentences of good tokens denote has the property `P`. -/
def Yields (good : τ → Prop) (L : Lang τ α) (P : α → Prop) : Prop :=
  ∀ ts a, (∀ t ∈ ts, good t) → L ts a → P a

section Yields

variable {good : τ → Prop} {P : α → Prop} {Q : β → Prop}

theorem Yields.mono {P' : α → Prop} {L : Lang τ α} (h : Yields good L P) (hP : ∀ a, P a → P' a) :
    Yields good L P' :=
  fun ts a hts ha => hP a (h ts a hts ha)

theorem yields_true (L : Lang τ α) : Yields good L fun _ => True :=
  fun _ _ _ _ => trivial

theorem yields_terminal {value : τ → Option α} (h : ∀ t a, good t → value t = some a → P a) :
    Yields good (terminal value) P := by
  rintro _ a hts ⟨t, rfl, ht⟩
  exact h t a (hts t List.mem_cons_self) ht

protected theorem Yields.pure {a : α} (h : P a) : Yields good (pure a : Lang τ α) P := by
  rintro _ _ _ ⟨rfl, rfl⟩
  exact h

protected theorem Yields.bind {L : Lang τ α} {f : α → Lang τ β} (hL : Yields good L P)
    (hf : ∀ a, P a → Yields good (f a) Q) : Yields good (L >>= f) Q := by
  rintro _ b hts ⟨a, xs, ys, rfl, hx, hy⟩
  rw [List.forall_mem_append] at hts
  exact hf a (hL xs a hts.1 hx) ys b hts.2 hy

protected theorem Yields.or {L M : Lang τ α} (hL : Yields good L P) (hM : Yields good M P) :
    Yields good (L.or M) P := by
  rintro ts a hts (h | h)
  · exact hL ts a hts h
  · exact hM ts a hts h

protected theorem Yields.iterate {body : β → Lang τ β} (h : ∀ b, Q b → Yields good (body b) Q)
    {b : β} (hb : Q b) : Yields good (iterate body b) Q := by
  intro ts b' hts hb'
  induction hb' with
  | done => exact hb
  | step hx _ ih =>
    rw [List.forall_mem_append] at hts
    exact ih (h _ hb _ _ hts.1 hx) hts.2

protected theorem Yields.sepBy {sep : Lang τ Unit} {item : β → Lang τ β}
    (h : ∀ b, Q b → Yields good (item b) Q) {b : β} (hb : Q b) :
    Yields good (sepBy sep item b) Q := by
  intro ts b' hts hb'
  induction hb' with
  | done => exact hb
  | last hx => exact h _ hb _ _ hts hx
  | step hx _ _ ih =>
    rw [List.forall_mem_append, List.forall_mem_append] at hts
    exact ih (h _ hb _ _ hts.1 hx) hts.2.2

end Yields

/-! ### How much sentences denote -/

/-- What a sentence of `n` good tokens denotes is bounded by `n` as `P` says. -/
def Bounds (good : τ → Prop) (L : Lang τ α) (P : Nat → α → Prop) : Prop :=
  ∀ ts a, (∀ t ∈ ts, good t) → L ts a → P ts.length a

section Bounds

variable {good : τ → Prop} {P : Nat → α → Prop} {Q : Nat → β → Prop}

theorem Bounds.mono {P' : Nat → α → Prop} {L : Lang τ α} (h : Bounds good L P)
    (hP : ∀ n a, P n a → P' n a) : Bounds good L P' :=
  fun ts a hts ha => hP _ a (h ts a hts ha)

theorem bounds_terminal {value : τ → Option α} (h : ∀ t a, good t → value t = some a → P 1 a) :
    Bounds good (terminal value) P := by
  rintro _ a hts ⟨t, rfl, ht⟩
  exact h t a (hts t List.mem_cons_self) ht

protected theorem Bounds.pure {a : α} (h : P 0 a) : Bounds good (pure a : Lang τ α) P := by
  rintro _ _ _ ⟨rfl, rfl⟩
  exact h

protected theorem Bounds.bind {L : Lang τ α} {f : α → Lang τ β} (hL : Bounds good L P)
    (hf : ∀ a n, P n a → Bounds good (f a) fun m => Q (n + m)) : Bounds good (L >>= f) Q := by
  rintro _ b hts ⟨a, xs, ys, rfl, hx, hy⟩
  rw [List.forall_mem_append] at hts
  rw [List.length_append]
  exact hf a _ (hL xs a hts.1 hx) ys b hts.2 hy

protected theorem Bounds.or {L M : Lang τ α} (hL : Bounds good L P) (hM : Bounds good M P) :
    Bounds good (L.or M) P := by
  rintro ts a hts (h | h)
  · exact hL ts a hts h
  · exact hM ts a hts h

protected theorem Bounds.iterate {body : β → Lang τ β}
    (h : ∀ b n, Q n b → Bounds good (body b) fun m => Q (n + m)) {b : β} {n : Nat} (hb : Q n b) :
    Bounds good (iterate body b) fun m => Q (n + m) := by
  intro ts b' hts hb'
  induction hb' generalizing n with
  | done => exact hb
  | @step _ _ _ xs _ hx _ ih =>
    rw [List.forall_mem_append] at hts
    have hrest := ih (n := n + xs.length) (h _ n hb _ _ hts.1 hx) hts.2
    rw [List.length_append, ← Nat.add_assoc]
    exact hrest

protected theorem Bounds.sepBy {sep : Lang τ Unit} {item : β → Lang τ β}
    (hmono : ∀ b m n, m ≤ n → Q m b → Q n b)
    (h : ∀ b n, Q n b → Bounds good (item b) fun m => Q (n + m)) {b : β} {n : Nat} (hb : Q n b) :
    Bounds good (sepBy sep item b) fun m => Q (n + m) := by
  intro ts b' hts hb'
  induction hb' generalizing n with
  | done => exact hb
  | last hx => exact h _ n hb _ _ hts hx
  | @step _ _ _ xs ss ys hx _ _ ih =>
    rw [List.forall_mem_append, List.forall_mem_append] at hts
    have hrest := ih (n := n + xs.length) (h _ n hb _ _ hts.1 hx) hts.2.2
    refine hmono _ _ _ ?_ hrest
    simp only [List.length_append]
    omega

/-- The value of a sentence of `n` tokens, of which there is at least one, satisfies `p` if there
are fewer than `limit`. -/
def Fits (limit : Nat) (p : α → Prop) (n : Nat) (a : α) : Prop :=
  0 < n ∧ (n < limit → p a)

/-- A list that `n` tokens denote has at most `n` items, which satisfy `p` if there are fewer than
`limit` tokens. -/
def AllFit (limit : Nat) (p : α → Prop) (n : Nat) (xs : List α) : Prop :=
  xs.length ≤ n ∧ (n < limit → ∀ x ∈ xs, p x)

variable {limit : Nat} {p : α → Prop}

theorem allFit_nil (n : Nat) : AllFit limit p n [] :=
  ⟨Nat.zero_le n, fun _ => List.forall_mem_nil p⟩

theorem AllFit.mono {m n : Nat} {xs : List α} (hmn : m ≤ n) (h : AllFit limit p m xs) :
    AllFit limit p n xs :=
  ⟨Nat.le_trans h.1 hmn, fun hn => h.2 (Nat.lt_of_le_of_lt hmn hn)⟩

theorem AllFit.concat {m n : Nat} {xs : List α} {x : α} (hxs : AllFit limit p m xs) (hn : 0 < n)
    (hx : m + n < limit → p x) : AllFit limit p (m + n) (xs ++ [x]) := by
  have hlength := hxs.1
  refine ⟨by rw [List.length_append, List.length_singleton]; omega, fun h => ?_⟩
  rw [List.forall_mem_append, List.forall_mem_singleton]
  exact ⟨hxs.2 (by omega), hx h⟩

/-- One more item behind those before it. -/
theorem Bounds.collect {L : Lang τ α} (hL : Bounds good L (Fits limit p)) {xs : List α} {m : Nat}
    (hxs : AllFit limit p m xs) :
    Bounds good (do let x ← L; return xs ++ [x]) fun n => AllFit limit p (m + n) :=
  .bind hL fun _ _ hx => .pure (hxs.concat hx.1 fun h => hx.2 (by omega))

end Bounds

/-! ### Which tokens stand next to each other -/

section Passes

variable {R : τ → τ → Prop} {p q r : τ → Prop}

/-- Behind a token that satisfies `p`, neighbours are related by `R` and the last token satisfies
`q`. -/
def Passes (R : τ → τ → Prop) (p : τ → Prop) (ts : List τ) (q : τ → Prop) : Prop :=
  ∀ t, p t → (t :: ts).IsChain R ∧ q ((t :: ts).getLast (List.cons_ne_nil t ts))

theorem passes_nil : Passes R p [] p :=
  fun t ht => ⟨List.IsChain.singleton t, ht⟩

theorem Passes.mono {p' q' : τ → Prop} {ts : List τ} (h : Passes R p ts q) (hp : ∀ t, p' t → p t)
    (hq : ∀ t, q t → q' t) : Passes R p' ts q' :=
  fun t ht => ⟨(h t (hp t ht)).1, hq _ (h t (hp t ht)).2⟩

theorem Passes.append {xs ys : List τ} (hxs : Passes R p xs q) (hys : Passes R q ys r) :
    Passes R p (xs ++ ys) r := by
  intro t ht
  obtain ⟨hchain, hq⟩ := hxs t ht
  clear hxs ht
  induction xs generalizing t with
  | nil => exact hys t hq
  | cons x xs ih =>
    rw [List.isChain_cons_cons] at hchain
    rw [List.getLast_cons (List.cons_ne_nil x xs)] at hq
    obtain ⟨hrest, hr⟩ := ih x hchain.2 hq
    refine ⟨List.isChain_cons_cons.2 ⟨hchain.1, hrest⟩, ?_⟩
    show r ((t :: x :: (xs ++ ys)).getLast _)
    rwa [List.getLast_cons (List.cons_ne_nil x _)]

theorem Passes.isChain {ts : List τ} (h : Passes R p ts q) {t : τ} (ht : p t) : ts.IsChain R :=
  (h t ht).1.tail

/-- Every sentence passes from `p` to `q`. -/
def Follows (R : τ → τ → Prop) (p : τ → Prop) (L : Lang τ α) (q : τ → Prop) : Prop :=
  ∀ ts a, L ts a → Passes R p ts q

theorem Follows.mono {p' q' : τ → Prop} {L : Lang τ α} (h : Follows R p L q)
    (hp : ∀ t, p' t → p t) (hq : ∀ t, q t → q' t) : Follows R p' L q' :=
  fun ts a ha => (h ts a ha).mono hp hq

theorem follows_terminal {value : τ → Option α}
    (h : ∀ t u a, p t → value u = some a → R t u ∧ q u) : Follows R p (terminal value) q := by
  rintro _ a ⟨u, rfl, hu⟩ t ht
  obtain ⟨hR, hq⟩ := h t u a ht hu
  exact ⟨List.isChain_cons_cons.2 ⟨hR, List.IsChain.singleton u⟩, hq⟩

protected theorem Follows.pure (a : α) : Follows R p (pure a : Lang τ α) p := by
  rintro _ _ ⟨rfl, -⟩
  exact passes_nil

protected theorem Follows.bind {L : Lang τ α} {f : α → Lang τ β} (hL : Follows R p L q)
    (hf : ∀ a, Follows R q (f a) r) : Follows R p (L >>= f) r := by
  rintro _ b ⟨a, xs, ys, rfl, hx, hy⟩
  exact (hL xs a hx).append (hf a ys b hy)

protected theorem Follows.or {L M : Lang τ α} (hL : Follows R p L q) (hM : Follows R p M q) :
    Follows R p (L.or M) q := by
  rintro ts a (h | h)
  · exact hL ts a h
  · exact hM ts a h

protected theorem Follows.iterate {body : β → Lang τ β} (h : ∀ b, Follows R p (body b) p) (b : β) :
    Follows R p (iterate body b) p := by
  intro ts b' hts
  induction hts with
  | done => exact passes_nil
  | step hx _ ih => exact (h _ _ _ hx).append ih

protected theorem Follows.sepBy {sep : Lang τ Unit} {item : β → Lang τ β}
    (hsep : Follows R p sep p) (h : ∀ b, Follows R p (item b) p) (b : β) :
    Follows R p (sepBy sep item b) p := by
  intro ts b' hts
  induction hts with
  | done => exact passes_nil
  | last hx => exact h _ _ _ hx
  | step hx hs _ ih => exact (h _ _ _ hx).append ((hsep _ _ hs).append ih)

end Passes

end Lang

/-! ### Token streams -/

/-- States that tokens can be taken from, one at a time. `valid` is an invariant of the states. -/
structure TokenStream (σ τ : Type) where
  valid : σ → Prop
  ahead : σ → List τ
  next : σ → σ
  valid_next : ∀ s, valid s → valid (next s)
  ahead_next : ∀ s, valid s → ahead (next s) = (ahead s).tail

namespace TokenStream

variable (S : TokenStream σ τ)

/-- The state after `n` tokens. -/
def after (n : Nat) (s : σ) : σ :=
  S.next^[n] s

theorem after_add (m n : Nat) (s : σ) : S.after (m + n) s = S.after n (S.after m s) := by
  rw [after, Nat.add_comm, Function.iterate_add_apply]
  rfl

theorem valid_after (n : Nat) {s : σ} (hv : S.valid s) : S.valid (S.after n s) := by
  induction n generalizing s with
  | zero => exact hv
  | succ n ih => exact ih (S.valid_next s hv)

theorem ahead_after (n : Nat) {s : σ} (hv : S.valid s) :
    S.ahead (S.after n s) = (S.ahead s).drop n := by
  induction n generalizing s with
  | zero => rfl
  | succ n ih =>
    rw [after, Function.iterate_succ_apply, ← after, ih (S.valid_next s hv), S.ahead_next s hv,
      ← List.drop_one, List.drop_drop, Nat.add_comm]

theorem ahead_after_of_prefix {ts us : List τ} {s : σ} (hv : S.valid s)
    (h : S.ahead s = ts ++ us) : S.ahead (S.after ts.length s) = us := by
  rw [S.ahead_after _ hv, h, List.drop_left]

end TokenStream

/-! ### Recognizers -/

/-- From the state `s`, the parser succeeds exactly when a sentence of `L` comes next, and where the
tokens ahead are good it fails in a benign way only. -/
structure RecognizesAt (S : TokenStream σ τ) (good : τ → Prop) (benign : ε → Prop)
    (x : StateT σ (Except ε) α) (L : Lang τ α) (s : σ) : Prop where
  ok_iff : ∀ a s', x s = .ok (a, s') ↔
    ∃ ts, ts <+: S.ahead s ∧ L ts a ∧ s' = S.after ts.length s
  benign_of_error : ∀ e, (∀ t ∈ S.ahead s, good t) → x s = .error e → benign e

/-- The parser recognizes the sentences of `L` from every valid state. -/
def Recognizes (S : TokenStream σ τ) (good : τ → Prop) (benign : ε → Prop)
    (x : StateT σ (Except ε) α) (L : Lang τ α) : Prop :=
  ∀ s, S.valid s → RecognizesAt S good benign x L s

variable {S : TokenStream σ τ} {good : τ → Prop} {benign : ε → Prop}

namespace RecognizesAt

theorem congr {x y : StateT σ (Except ε) α} {L M : Lang τ α} {s : σ}
    (h : RecognizesAt S good benign x L s) (hxy : y s = x s) (hLM : ∀ ts a, L ts a ↔ M ts a) :
    RecognizesAt S good benign y M s where
  ok_iff a s' := by simp only [hxy, h.ok_iff, hLM]
  benign_of_error e := by rw [hxy]; exact h.benign_of_error e

/-- On a sentence the parser returns its value. -/
theorem ok {x : StateT σ (Except ε) α} {L : Lang τ α} {s : σ}
    (h : RecognizesAt S good benign x L s) {ts us : List τ} {a : α} (hs : S.ahead s = ts ++ us)
    (ha : L ts a) : x s = .ok (a, S.after ts.length s) :=
  (h.ok_iff ..).2 ⟨ts, hs ▸ List.prefix_append ts us, ha, rfl⟩

/-- Success comes from a sentence. -/
theorem of_ok {x : StateT σ (Except ε) α} {L : Lang τ α} {s s' : σ}
    (h : RecognizesAt S good benign x L s) (hv : S.valid s) {a : α} (hx : x s = .ok (a, s')) :
    ∃ ts, L ts a ∧ S.ahead s = ts ++ S.ahead s' ∧ s' = S.after ts.length s ∧ S.valid s' := by
  obtain ⟨ts, ⟨us, hs⟩, ha, rfl⟩ := (h.ok_iff ..).1 hx
  exact ⟨ts, ha, by rw [S.ahead_after_of_prefix hv hs.symm, hs], rfl, S.valid_after _ hv⟩

/-- Of the sentences that can come next there is only one, and it has only one value. -/
theorem unique {x : StateT σ (Except ε) α} {L : Lang τ α} {s : σ}
    (h : RecognizesAt S good benign x L s) (hv : S.valid s) {ts us ts' us' : List τ} {a a' : α}
    (hs : S.ahead s = ts ++ us) (ha : L ts a) (hs' : S.ahead s = ts' ++ us') (ha' : L ts' a') :
    a = a' ∧ ts = ts' := by
  have heq : (a, S.after ts.length s) = (a', S.after ts'.length s) :=
    Except.ok.inj ((h.ok hs ha).symm.trans (h.ok hs' ha'))
  have hrest : us = us' := by
    rw [← S.ahead_after_of_prefix hv hs, ← S.ahead_after_of_prefix hv hs', (Prod.mk.inj heq).2]
  subst hrest
  exact ⟨(Prod.mk.inj heq).1, List.append_cancel_right (hs.symm.trans hs')⟩

theorem length_le {x : StateT σ (Except ε) α} {L : Lang τ α} {s s' : σ} {a : α}
    (h : RecognizesAt S good benign x L s) (hv : S.valid s) (hx : x s = .ok (a, s')) :
    (S.ahead s').length ≤ (S.ahead s).length := by
  obtain ⟨ts, -, hs, -⟩ := h.of_ok hv hx
  rw [hs, List.length_append]
  omega

theorem length_lt {x : StateT σ (Except ε) α} {L : Lang τ α} {s s' : σ} {a : α} {p : τ → Prop}
    (h : RecognizesAt S good benign x L s) (hv : S.valid s) (hL : L.Starts p)
    (hx : x s = .ok (a, s')) : (S.ahead s').length < (S.ahead s).length := by
  obtain ⟨ts, ha, hs, -⟩ := h.of_ok hv hx
  obtain ⟨t, us, rfl, -⟩ := hL ts a ha
  rw [hs, List.length_append, List.length_cons]
  omega

protected theorem pure (a : α) (s : σ) :
    RecognizesAt S good benign (pure a : StateT σ (Except ε) α) (pure a) s where
  ok_iff b s' := by
    simp only [pure_eq_ok, Lang.pure_iff]
    constructor
    · rintro ⟨rfl, rfl⟩
      exact ⟨[], List.nil_prefix, ⟨rfl, rfl⟩, rfl⟩
    · rintro ⟨_, -, ⟨rfl, rfl⟩, rfl⟩
      exact ⟨rfl, rfl⟩
  benign_of_error e _ h := absurd (show Except.ok (a, s) = .error e from h) (by simp)

/-- A parser that takes the next token if it has a value. -/
theorem terminal {x : StateT σ (Except ε) α} {value : τ → Option α} {s : σ}
    (hsome : ∀ t us a, S.ahead s = t :: us → value t = some a → x s = .ok (a, S.next s))
    (hnone : ∀ t us, S.ahead s = t :: us → value t = none →
      ∃ e, x s = .error e ∧ (good t → benign e))
    (hnil : S.ahead s = [] → ∃ e, x s = .error e ∧ benign e) :
    RecognizesAt S good benign x (Lang.terminal value) s where
  ok_iff a s' := by
    constructor
    · intro h
      cases hs : S.ahead s with
      | nil =>
        obtain ⟨e, he, -⟩ := hnil hs
        exact absurd (he.symm.trans h) (by simp)
      | cons t us =>
        cases hval : value t with
        | none =>
          obtain ⟨e, he, -⟩ := hnone t us hs hval
          exact absurd (he.symm.trans h) (by simp)
        | some b =>
          have hok := (hsome t us b hs hval).symm.trans h
          obtain ⟨rfl, rfl⟩ : b = a ∧ S.next s = s' := by simpa using hok
          exact ⟨[t], ⟨us, rfl⟩, ⟨t, rfl, hval⟩, rfl⟩
    · rintro ⟨_, ⟨us, hs⟩, ⟨t, rfl, ht⟩, rfl⟩
      exact hsome t us a hs.symm ht
  benign_of_error e hgood h := by
    cases hs : S.ahead s with
    | nil =>
      obtain ⟨e', he, hbenign⟩ := hnil hs
      obtain rfl : e' = e := by simpa [he] using h
      exact hbenign
    | cons t us =>
      cases hval : value t with
      | some b => exact absurd ((hsome t us b hs hval).symm.trans h) (by simp)
      | none =>
        obtain ⟨e', he, hbenign⟩ := hnone t us hs hval
        obtain rfl : e' = e := by simpa [he] using h
        exact hbenign (hgood t (by rw [hs]; exact List.mem_cons_self))

protected theorem bind {x : StateT σ (Except ε) α} {f : α → StateT σ (Except ε) β} {L : Lang τ α}
    {M : α → Lang τ β} {s : σ} (hv : S.valid s) (hx : RecognizesAt S good benign x L s)
    (hf : ∀ a s', x s = .ok (a, s') → S.valid s' → RecognizesAt S good benign (f a) (M a) s') :
    RecognizesAt S good benign (x >>= f) (L >>= M) s where
  ok_iff b s' := by
    rw [bind_eq_ok]
    constructor
    · rintro ⟨a, s₁, hxa, hfb⟩
      have hv₁ : S.valid s₁ := (hx.of_ok hv hxa).choose_spec.2.2.2
      obtain ⟨ys, hb, hs', rfl, -⟩ := (hf a s₁ hxa hv₁).of_ok hv₁ hfb
      obtain ⟨xs, ha, hs, rfl, -⟩ := hx.of_ok hv hxa
      rw [hs'] at hs
      exact ⟨xs ++ ys, ⟨_, by rw [hs, List.append_assoc]⟩, ⟨a, xs, ys, rfl, ha, hb⟩,
        by rw [List.length_append, S.after_add]⟩
    · rintro ⟨_, ⟨us, hs⟩, ⟨a, xs, ys, rfl, ha, hb⟩, rfl⟩
      rw [List.append_assoc] at hs
      have hxa := hx.ok hs.symm ha
      refine ⟨a, _, hxa, ?_⟩
      rw [List.length_append, S.after_add]
      exact (hf a _ hxa (S.valid_after _ hv)).ok (S.ahead_after_of_prefix hv hs.symm) hb
  benign_of_error e hg h := by
    rcases bind_error.1 h with h | ⟨a, s', hxa, hfe⟩
    · exact hx.benign_of_error e hg h
    · obtain ⟨xs, -, hs, -, hv'⟩ := hx.of_ok hv hxa
      refine (hf a s' hxa hv').benign_of_error e (fun t ht => hg t ?_) hfe
      rw [hs]
      exact List.mem_append_right _ ht

/-- A decision on the next token. -/
theorem branch {c : Prop} [Decidable c] {p : τ → Prop} {x y : StateT σ (Except ε) α}
    {L M : Lang τ α} {s : σ} (hp : ∀ t us, S.ahead s = t :: us → (c ↔ p t))
    (hx : c → RecognizesAt S good benign x L s) (hL : L.Starts p)
    (hy : ¬ c → RecognizesAt S good benign y M s) (hM : M.Starts fun t => ¬ p t) :
    RecognizesAt S good benign (if c then x else y) (L.or M) s where
  ok_iff a s' := by
    constructor
    · intro h
      split_ifs at h with hc
      · obtain ⟨ts, hts, ha, rfl⟩ := ((hx hc).ok_iff ..).1 h
        exact ⟨ts, hts, .inl ha, rfl⟩
      · obtain ⟨ts, hts, ha, rfl⟩ := ((hy hc).ok_iff ..).1 h
        exact ⟨ts, hts, .inr ha, rfl⟩
    · rintro ⟨ts, ⟨us, hs⟩, ha | ha, rfl⟩
      · obtain ⟨t, ts, rfl, ht⟩ := hL ts a ha
        have hc : c := (hp t _ hs.symm).2 ht
        rw [if_pos hc]
        exact (hx hc).ok hs.symm ha
      · obtain ⟨t, ts, rfl, ht⟩ := hM ts a ha
        have hc : ¬ c := fun hc => ht ((hp t _ hs.symm).1 hc)
        rw [if_neg hc]
        exact (hy hc).ok hs.symm ha
  benign_of_error e hg h := by
    split_ifs at h with hc
    · exact (hx hc).benign_of_error e hg h
    · exact (hy hc).benign_of_error e hg h

/-- A decision on the next token, with only one choice that can succeed. -/
theorem check {c : Prop} [Decidable c] {p : τ → Prop} {x y : StateT σ (Except ε) α}
    {L : Lang τ α} {s : σ} (hp : ∀ t us, S.ahead s = t :: us → (c ↔ p t))
    (hx : c → RecognizesAt S good benign x L s) (hL : L.Starts p)
    (hy : ∃ e, y s = .error e ∧ benign e) :
    RecognizesAt S good benign (if c then x else y) L s := by
  obtain ⟨e, he, hbenign⟩ := hy
  have hfail : RecognizesAt S good benign y (fun _ _ => False) s := by
    constructor
    · intro a s'
      simp [he]
    · intro e' _ h
      obtain rfl : e = e' := by simpa [he] using h
      exact hbenign
  refine (branch hp hx hL (fun _ => hfail) fun _ _ h => h.elim).congr rfl fun ts a => ?_
  exact ⟨fun h => h.elim id False.elim, .inl⟩

end RecognizesAt

namespace Recognizes

theorem congr {x : StateT σ (Except ε) α} {L M : Lang τ α} (h : Recognizes S good benign x L)
    (hLM : ∀ ts a, L ts a ↔ M ts a) : Recognizes S good benign x M :=
  fun s hv => (h s hv).congr rfl hLM

protected theorem pure (a : α) :
    Recognizes S good benign (pure a : StateT σ (Except ε) α) (pure a) :=
  fun s _ => RecognizesAt.pure a s

protected theorem bind {x : StateT σ (Except ε) α} {f : α → StateT σ (Except ε) β} {L : Lang τ α}
    {M : α → Lang τ β} (hx : Recognizes S good benign x L)
    (hf : ∀ a, Recognizes S good benign (f a) (M a)) :
    Recognizes S good benign (x >>= f) (L >>= M) :=
  fun s hv => (hx s hv).bind hv fun a s' _ => hf a s'

/-- A parser that always fails in a benign way. -/
theorem fail {e : ε} (he : benign e) :
    Recognizes S good benign (throw e : StateT σ (Except ε) α) (fun _ _ => False) := by
  intro s _
  constructor
  · exact fun a s' => iff_of_false throw_ne_ok (by simp)
  · intro e' _ h
    obtain rfl : e = e' := Except.error.inj h
    exact he

/-! ### Loops -/

/-- A loop decided by the next token, with enough rounds for the tokens that are left. -/
theorem loop {c : σ → Prop} [DecidablePred c] {p : τ → Prop}
    (hp : ∀ s t us, S.ahead s = t :: us → (c s ↔ p t)) {body : β → StateT σ (Except ε) β}
    {B : β → Lang τ β} (hbody : ∀ b, Recognizes S good benign (body b) (B b))
    (hB : ∀ b, (B b).Starts p) {k : β → StateT σ (Except ε) α} {K : β → Lang τ α}
    (hk : ∀ b, Recognizes S good benign (k b) (K b)) (hK : ∀ b, (K b).Starts fun t => ¬ p t)
    {rounds : σ → Nat} (hrounds : ∀ s, S.valid s → (S.ahead s).length < rounds s) (out : ε)
    (b : β) :
    Recognizes S good benign ((fun s => loopWhile c body out (rounds s) b s) >>= k)
      (Lang.iterate B b >>= K) := by
  have step (n : Nat) (s : σ) (hv : S.valid s) (b : β) (hn : (S.ahead s).length < n) :
      RecognizesAt S good benign (loopWhile c body out n b >>= k) (Lang.iterate B b >>= K) s := by
    -- every round takes a token, so the rounds last
    induction n generalizing s b with
    | zero => exact absurd hn (Nat.not_lt_zero _)
    | succ n ih =>
      refine (RecognizesAt.branch (hp s)
        (fun _ => (hbody b s hv).bind hv fun b' s' hb' hv' => ih s' hv' b' ?_)
        ((hB b).bind _) (fun _ => hk b s hv) (hK b)).congr ?_ Lang.iterate_bind_iff
      · have := (hbody b s hv).length_lt hv (hB b) hb'
        omega
      · rw [loopWhile_bind]
        split_ifs <;> rfl
  exact fun s hv => (step (rounds s) s hv b (hrounds s hv)).congr rfl fun _ _ => Iff.rfl

end Recognizes

end Grammar
