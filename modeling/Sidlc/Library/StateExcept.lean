import Mathlib.Data.List.Basic

/-!
# Computations over `StateT σ (Except ε)`

Readers and parsers are functions `σ → Except ε (α × σ)`. `bind_eq_ok` and `pure_eq_ok` invert a
successful run one step at a time; `bind_of_ok` replays one. `collectN` is the counted loop that
pushes one result per round.
-/

namespace StateExcept

variable {σ ε α β : Type}

theorem except_bind_eq_ok {x : Except ε α} {f : α → Except ε β} {b : β} :
    (x >>= f) = .ok b ↔ ∃ a, x = .ok a ∧ f a = .ok b := by
  cases x with
  | error e => simp [bind, Except.bind]
  | ok a => simp [bind, Except.bind]

theorem except_bind_eq_error {x : Except ε α} {f : α → Except ε β} {e : ε} :
    x >>= f = .error e ↔ x = .error e ∨ ∃ a, x = .ok a ∧ f a = .error e := by
  cases x with
  | error e' => simp [bind, Except.bind]
  | ok a => simp [bind, Except.bind]

theorem except_pure_eq_ok {a b : α} : (pure a : Except ε α) = .ok b ↔ b = a := by
  change Except.ok a = _ ↔ _
  simp [eq_comm]

/-- A round of a loop that succeeds. -/
theorem foldlM_cons_of_ok {f : β → α → Except ε β} {b b' : β} {a : α} (h : f b a = .ok b')
    (as : List α) : (a :: as).foldlM f b = as.foldlM f b' := by
  rw [List.foldlM_cons, h]
  rfl

/-- A loop that succeeds, one round at a time. -/
theorem foldlM_cons_eq_ok {f : β → α → Except ε β} {b r : β} {a : α} {as : List α} :
    (a :: as).foldlM f b = .ok r ↔ ∃ b', f b a = .ok b' ∧ as.foldlM f b' = .ok r := by
  rw [List.foldlM_cons, except_bind_eq_ok]

/-- A sequence succeeds exactly when its first part does and the rest succeeds from there. -/
theorem bind_eq_ok {x : StateT σ (Except ε) α} {f : α → StateT σ (Except ε) β} {s s' : σ} {b : β} :
    (x >>= f) s = .ok (b, s') ↔ ∃ a s₁, x s = .ok (a, s₁) ∧ f a s₁ = .ok (b, s') := by
  change (x s >>= fun p => f p.1 p.2) = _ ↔ _
  rw [except_bind_eq_ok, Prod.exists]

theorem pure_eq_ok {s s' : σ} {a b : α} :
    (pure a : StateT σ (Except ε) α) s = .ok (b, s') ↔ b = a ∧ s' = s := by
  change Except.ok (a, s) = _ ↔ _
  simp [eq_comm]

theorem throw_ne_ok {s s' : σ} {e : ε} {a : α} :
    (throw e : StateT σ (Except ε) α) s ≠ .ok (a, s') := by
  change Except.error e ≠ _
  simp

theorem bind_of_ok {x : StateT σ (Except ε) α} {f : α → StateT σ (Except ε) β} {s s₁ : σ} {a : α}
    (h : x s = .ok (a, s₁)) : (x >>= f) s = f a s₁ := by
  change (x s >>= fun p => f p.1 p.2) = _
  rw [h]
  rfl

theorem map_eq_ok {x : StateT σ (Except ε) α} {f : α → β} {s s' : σ} {b : β} :
    (f <$> x) s = .ok (b, s') ↔ ∃ a, x s = .ok (a, s') ∧ b = f a := by
  change (x s >>= fun p => pure (f p.1, p.2)) = _ ↔ _
  cases x s with
  | error e => simp [bind, Except.bind]
  | ok p => obtain ⟨a, s₁⟩ := p; simp [bind, Except.bind, pure, Except.pure]; grind

/-- A computation that does not look at the state. -/
def fromExcept (x : Except ε α) : StateT σ (Except ε) α :=
  fun s => x.map fun a => (a, s)

theorem fromExcept_eq_ok {x : Except ε α} {s s' : σ} {a : α} :
    (fromExcept x : StateT σ (Except ε) α) s = .ok (a, s') ↔ x = .ok a ∧ s' = s := by
  cases x with
  | error e => simp [fromExcept, Except.map]
  | ok b => simp [fromExcept, Except.map, eq_comm]

theorem fromExcept_eq_error {x : Except ε α} {s : σ} {e : ε} :
    (fromExcept x : StateT σ (Except ε) α) s = .error e ↔ x = .error e := by
  cases x with
  | error e' => simp [fromExcept, Except.map]
  | ok b => simp [fromExcept, Except.map]

/-- Raises `e` when `c` holds. -/
def throwIf (c : Prop) [Decidable c] (e : ε) : StateT σ (Except ε) Unit :=
  if c then throw e else pure ()

theorem throwIf_eq_ok {c : Prop} [Decidable c] {e : ε} {s s' : σ} {u : Unit} :
    throwIf c e s = .ok (u, s') ↔ ¬ c ∧ s' = s := by
  rw [throwIf]
  split_ifs with h
  · simp [h, throw_ne_ok]
  · simp [h, pure_eq_ok]

/-- `n` rounds of `x`, their results in order. -/
def collectN (x : StateT σ (Except ε) α) : Nat → StateT σ (Except ε) (List α)
  | 0 => pure []
  | n + 1 => do
    let a ← x
    let as ← collectN x n
    return a :: as

/-- `while (c) b = body(b);`, at most `n` rounds; `out` is raised when they are used up. -/
def loopWhile (c : σ → Prop) [DecidablePred c] (body : β → StateT σ (Except ε) β) (out : ε) :
    Nat → β → StateT σ (Except ε) β
  | 0, _ => throw out
  | n + 1, b => fun s => if c s then (body b >>= loopWhile c body out n) s else .ok (b, s)

/-- `if (c) x();` -/
def onlyIf (c : σ → Prop) [DecidablePred c] (x : StateT σ (Except ε) Unit) :
    StateT σ (Except ε) Unit :=
  fun s => if c s then x s else .ok ((), s)

/-- A round of a loop over separated items: an item, and a separator if the loop goes on. -/
def separated (c : σ → Prop) [DecidablePred c] (sep : StateT σ (Except ε) Unit)
    (item : β → StateT σ (Except ε) β) (b : β) : StateT σ (Except ε) β := do
  let b ← item b
  onlyIf c sep
  return b

theorem bind_error {x : StateT σ (Except ε) α} {f : α → StateT σ (Except ε) β} {s : σ} {e : ε} :
    (x >>= f) s = .error e ↔ x s = .error e ∨ ∃ a s', x s = .ok (a, s') ∧ f a s' = .error e := by
  change (x s >>= fun p => f p.1 p.2) = _ ↔ _
  rw [except_bind_eq_error, Prod.exists]

/-- Sequences agree where their first parts do, and what follows a success. -/
theorem bind_congr_of_ok {x y : StateT σ (Except ε) α} {f g : α → StateT σ (Except ε) β} {s : σ}
    (hxy : x s = y s) (hfg : ∀ a s', x s = .ok (a, s') → f a s' = g a s') :
    (x >>= f) s = (y >>= g) s := by
  change (x s >>= fun p => f p.1 p.2) = (y s >>= fun p => g p.1 p.2)
  rw [← hxy]
  cases hx : x s with
  | error e => rfl
  | ok p => exact hfg p.1 p.2 hx

/-- A loop before `k`: either a round and the loop again, or `k`. -/
theorem loopWhile_bind {c : σ → Prop} [DecidablePred c] {body : β → StateT σ (Except ε) β} {out : ε}
    {n : Nat} {b : β} (k : β → StateT σ (Except ε) α) (s : σ) :
    (loopWhile c body out (n + 1) b >>= k) s =
      if c s then (body b >>= fun b' => loopWhile c body out n b' >>= k) s else k b s := by
  change (loopWhile c body out (n + 1) b s >>= fun p => k p.1 p.2) = _
  simp only [loopWhile]
  split_ifs
  · rw [← bind_assoc]
    rfl
  · rfl

theorem onlyIf_bind {c : σ → Prop} [DecidablePred c] {x : StateT σ (Except ε) Unit}
    (k : Unit → StateT σ (Except ε) α) (s : σ) :
    (onlyIf c x >>= k) s = if c s then (x >>= k) s else k () s := by
  change (onlyIf c x s >>= fun p => k p.1 p.2) = _
  simp only [onlyIf]
  split_ifs <;> rfl

theorem separated_bind {c : σ → Prop} [DecidablePred c] {sep : StateT σ (Except ε) Unit}
    {item : β → StateT σ (Except ε) β} {b : β} (k : β → StateT σ (Except ε) α) :
    separated c sep item b >>= k = item b >>= fun b' => onlyIf c sep >>= fun _ => k b' := by
  simp only [separated, bind_assoc, pure_bind]

/-! ### Which exceptions are raised -/

/-- Every exception that the computation raises is allowed. -/
def RaisesOnly (allowed : ε → Prop) (x : StateT σ (Except ε) α) : Prop :=
  ∀ s e, x s = .error e → allowed e

namespace RaisesOnly

variable {allowed : ε → Prop}

theorem pure (a : α) : RaisesOnly allowed (pure a : StateT σ (Except ε) α) :=
  fun _ _ h => nomatch h

theorem throw {e : ε} (h : allowed e) : RaisesOnly allowed (throw e : StateT σ (Except ε) α) := by
  intro s e' he'
  rwa [← Except.error.inj he']

theorem bind {x : StateT σ (Except ε) α} {f : α → StateT σ (Except ε) β}
    (hx : RaisesOnly allowed x) (hf : ∀ a, RaisesOnly allowed (f a)) :
    RaisesOnly allowed (x >>= f) := by
  intro s e h
  rcases bind_error.1 h with h | ⟨a, s', -, h⟩
  · exact hx s e h
  · exact hf a s' e h

theorem map {x : StateT σ (Except ε) α} (f : α → β) (hx : RaisesOnly allowed x) :
    RaisesOnly allowed (f <$> x) := by
  rw [map_eq_pure_bind]
  exact hx.bind fun a => pure (f a)

theorem fromExcept {x : Except ε α} (h : ∀ e, x = .error e → allowed e) :
    RaisesOnly allowed (fromExcept x : StateT σ (Except ε) α) :=
  fun _ e he => h e (fromExcept_eq_error.1 he)

theorem throwIf {c : Prop} [Decidable c] {e : ε} (h : allowed e) :
    RaisesOnly allowed (throwIf c e : StateT σ (Except ε) Unit) := by
  rw [StateExcept.throwIf]
  split
  · exact throw h
  · exact pure ()

theorem collectN {x : StateT σ (Except ε) α} (hx : RaisesOnly allowed x) (n : Nat) :
    RaisesOnly allowed (collectN x n) := by
  induction n with
  | zero => exact pure []
  | succ n ih => exact hx.bind fun a => ih.bind fun as => pure (a :: as)

theorem foldlM {f : β → α → StateT σ (Except ε) β} (hf : ∀ b a, RaisesOnly allowed (f b a))
    (as : List α) (b : β) : RaisesOnly allowed (as.foldlM f b) := by
  induction as generalizing b with
  | nil => exact pure b
  | cons a as ih =>
    rw [List.foldlM_cons]
    exact (hf b a).bind ih

end RaisesOnly

end StateExcept
