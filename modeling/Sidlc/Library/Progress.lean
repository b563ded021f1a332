import Mathlib.Logic.Relation
import Sidlc.Library.StateExcept

/-!
# Computations that end

A loop of the model that has used up its rounds raises the mark `out`. A computation `Halts` from a
state if it does not raise the mark, and moves along the steps `step` where it succeeds; it
`Consumes` if it takes at least one step then. A loop whose body consumes has no more rounds than
there are steps, so it ends when its rounds exceed a measure that every step makes smaller
(`Halts.loop`).
-/

namespace StateExcept

open Relation

variable {σ ε α β : Type}

/-- From `s` on, `x` takes any number of steps or throws. -/
structure Halts (step : σ → σ → Prop) (out : ε) (x : StateT σ (Except ε) α) (s : σ) : Prop where
  ne_out : x s ≠ .error out
  steps : ∀ a s', x s = .ok (a, s') → ReflTransGen step s s'

/-- From `s` on, `x` takes at least one step or throws. -/
structure Consumes (step : σ → σ → Prop) (out : ε) (x : StateT σ (Except ε) α) (s : σ) : Prop where
  ne_out : x s ≠ .error out
  steps : ∀ a s', x s = .ok (a, s') → TransGen step s s'

variable {step : σ → σ → Prop} {out : ε} {x : StateT σ (Except ε) α}
  {f : α → StateT σ (Except ε) β} {s : σ}

theorem Consumes.halts (h : Consumes step out x s) : Halts step out x s where
  ne_out := h.ne_out
  steps a s' hx := (h.steps a s' hx).to_reflTransGen

theorem bind_ne_out (hx : x s ≠ .error out) (hf : ∀ a s', x s = .ok (a, s') → f a s' ≠ .error out) :
    (x >>= f) s ≠ .error out := by
  intro h
  rcases bind_error.1 h with hxe | ⟨a, s', hxa, hfe⟩
  · exact hx hxe
  · exact hf a s' hxa hfe

/-! ### Sequences -/

protected theorem Halts.bind (hx : Halts step out x s)
    (hf : ∀ a s', ReflTransGen step s s' → Halts step out (f a) s') :
    Halts step out (x >>= f) s where
  ne_out := bind_ne_out hx.ne_out fun a s' hxa => (hf a s' (hx.steps a s' hxa)).ne_out
  steps b s'' h := by
    obtain ⟨a, s', hxa, hfa⟩ := bind_eq_ok.1 h
    have hxs := hx.steps a s' hxa
    exact hxs.trans ((hf a s' hxs).steps b s'' hfa)

protected theorem Consumes.bind (hx : Consumes step out x s)
    (hf : ∀ a s', TransGen step s s' → Halts step out (f a) s') :
    Consumes step out (x >>= f) s where
  ne_out := bind_ne_out hx.ne_out fun a s' hxa => (hf a s' (hx.steps a s' hxa)).ne_out
  steps b s'' h := by
    obtain ⟨a, s', hxa, hfa⟩ := bind_eq_ok.1 h
    have hxs := hx.steps a s' hxa
    exact hxs.trans_left ((hf a s' hxs).steps b s'' hfa)

theorem Halts.bind_consumes (hx : Halts step out x s)
    (hf : ∀ a s', ReflTransGen step s s' → Consumes step out (f a) s') :
    Consumes step out (x >>= f) s where
  ne_out := bind_ne_out hx.ne_out fun a s' hxa => (hf a s' (hx.steps a s' hxa)).ne_out
  steps b s'' h := by
    obtain ⟨a, s', hxa, hfa⟩ := bind_eq_ok.1 h
    have hxs := hx.steps a s' hxa
    exact TransGen.trans_right hxs ((hf a s' hxs).steps b s'' hfa)

protected theorem Halts.pure (a : α) : Halts step out (pure a) s where
  ne_out h := by
    change Except.ok (a, s) = _ at h
    cases h
  steps b s' h := by
    obtain ⟨-, rfl⟩ := pure_eq_ok.1 h
    exact .refl

protected theorem Consumes.throw {e : ε} (he : e ≠ out) :
    Consumes step out (throw e : StateT σ (Except ε) α) s where
  ne_out h := he (Except.error.inj h)
  steps _ _ h := absurd h throw_ne_ok

protected theorem Halts.fromExcept {y : Except ε α} (hy : y ≠ .error out) :
    Halts step out (fromExcept y) s where
  ne_out h := hy (fromExcept_eq_error.1 h)
  steps a s' h := by
    obtain ⟨-, rfl⟩ := fromExcept_eq_ok.1 h
    exact .refl

theorem Consumes.of_error {e : ε} (h : x s = .error e) (he : e ≠ out) : Consumes step out x s where
  ne_out h' := he (Except.error.inj (h.symm.trans h'))
  steps _ _ h' := absurd (h.symm.trans h') (by simp)

theorem Consumes.congr {y : StateT σ (Except ε) α} (h : x s = y s) (hy : Consumes step out y s) :
    Consumes step out x s where
  ne_out := h ▸ hy.ne_out
  steps a s' hx := hy.steps a s' (h ▸ hx)

theorem Halts.congr {y : StateT σ (Except ε) α} (h : x s = y s) (hy : Halts step out y s) :
    Halts step out x s where
  ne_out := h ▸ hy.ne_out
  steps a s' hx := hy.steps a s' (h ▸ hx)

/-- A part that does not look at the state, before one that takes a step. -/
theorem Consumes.of_fromExcept {y : Except ε α} (hy : y ≠ .error out)
    (hf : ∀ a, Consumes step out (f a) s) :
    Consumes step out (StateExcept.fromExcept y >>= f) s := by
  cases y with
  | error e => exact .of_error (bind_error.2 (.inl rfl)) fun he => hy (congrArg _ he)
  | ok a => exact .congr (bind_of_ok rfl) (hf a)

protected theorem Halts.onlyIf {c : σ → Prop} [DecidablePred c] {y : StateT σ (Except ε) Unit}
    (hy : Halts step out y s) : Halts step out (onlyIf c y) s := by
  by_cases hc : c s
  · exact .congr (if_pos hc) hy
  · exact .congr (y := pure ()) (if_neg hc) (.pure ())

/-! ### Loops -/

/-- A measure that every step makes smaller is smaller after some steps. -/
theorem measure_lt {μ : σ → Nat} (hμ : ∀ s s', step s s' → μ s' < μ s) {s s' : σ}
    (h : TransGen step s s') : μ s' < μ s := by
  induction h with
  | single h => exact hμ _ _ h
  | tail _ h ih => exact Nat.lt_trans (hμ _ _ h) ih

theorem measure_le {μ : σ → Nat} (hμ : ∀ s s', step s s' → μ s' < μ s) {s s' : σ}
    (h : ReflTransGen step s s') : μ s' ≤ μ s := by
  induction h with
  | refl => exact Nat.le_refl _
  | tail _ h ih => exact Nat.le_trans (Nat.le_of_lt (hμ _ _ h)) ih

/-- **Loops end**: a loop whose body consumes takes fewer rounds than the measure allows. -/
theorem Halts.loop {μ : σ → Nat} (hμ : ∀ s s', step s s' → μ s' < μ s) {c : σ → Prop}
    [DecidablePred c] {body : β → StateT σ (Except ε) β}
    (hbody : ∀ b s, Consumes step out (body b) s) :
    ∀ (n : Nat) (b : β) (s : σ), μ s < n → Halts step out (loopWhile c body out n b) s := by
  intro n
  induction n with
  | zero => intro b s hn; exact absurd hn (Nat.not_lt_zero _)
  | succ n ih =>
    intro b s hn
    by_cases hc : c s
    · have hrun : loopWhile c body out (n + 1) b s = (body b >>= loopWhile c body out n) s :=
        if_pos hc
      have hround : Consumes step out (body b >>= loopWhile c body out n) s := by
        refine (hbody b s).bind fun b' s' hsteps => ih b' s' ?_
        have hless := measure_lt hμ hsteps
        omega
      exact .congr hrun hround.halts
    · exact .congr (y := pure b) (if_neg hc) (.pure b)

end StateExcept
