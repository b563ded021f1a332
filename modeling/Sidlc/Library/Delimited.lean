import Mathlib.Data.List.TakeWhile

/-!
# Codes that show where they end

A code `enc` of the values with `good` is `Delimited stop` if a text that begins with the code of a
value, with nothing or a symbol with `stop` behind it, begins with the code of no other value. Words
over an alphabet are delimited by the symbols outside of it, and a code that closes with a symbol of
its own by any. Codes in sequence, lists of codes with separators, and a delimited code under an
injective map are delimited again, and a run of codes that are not empty shows all of them
(`Delimited.flatMap_injective`).
-/

namespace Delimited

variable {α β τ : Type}

/-- The text is empty or begins with an allowed symbol. -/
def Stops (stop : τ → Prop) (x : List τ) : Prop :=
  ∀ b ∈ x.head?, stop b

theorem stops_cons {stop : τ → Prop} {b : τ} (hb : stop b) (x : List τ) : Stops stop (b :: x) := by
  intro c hc
  obtain rfl : b = c := by simpa using hc
  exact hb

end Delimited

open Delimited in
/-- Codes of good values can be told apart, whatever allowed symbols follow. -/
def Delimited {α τ : Type} (stop : τ → Prop) (good : α → Prop) (enc : α → List τ) : Prop :=
  ∀ a b x y, good a → good b → Stops stop x → Stops stop y → enc a ++ x = enc b ++ y → a = b ∧ x = y

namespace Delimited

variable {α β τ : Type} {stop : τ → Prop} {good : α → Prop} {enc : α → List τ}

/-! ### Codes of a value -/

/-- Words over an alphabet end where a symbol outside of it follows. -/
theorem of_alphabet {p : τ → Bool} (hp : ∀ a, good a → ∀ c ∈ enc a, p c = true)
    (hstop : ∀ b, stop b → p b = false)
    (hinj : ∀ a b, good a → good b → enc a = enc b → a = b) : Delimited stop good enc := by
  have hword (a : α) (x : List τ) (ha : good a) (hx : Stops stop x) :
      (enc a ++ x).takeWhile p = enc a := by
    rw [List.takeWhile_append_of_pos (hp a ha)]
    cases x with
    | nil => rw [List.takeWhile_nil, List.append_nil]
    | cons b x =>
      have hb := hstop b (hx b rfl)
      rw [List.takeWhile_cons, hb, if_neg (by simp), List.append_nil]
  intro a b x y ha hb hx hy h
  have henc : enc a = enc b := by rw [← hword a x ha hx, h, hword b y hb hy]
  rw [henc] at h
  exact ⟨hinj a b ha hb henc, List.append_cancel_left h⟩

/-- What is closed by a symbol that does not occur in it ends there. -/
theorem of_closed {close : τ} {body : α → List τ} (hbody : ∀ a, good a → close ∉ body a)
    (hinj : ∀ a b, good a → good b → body a = body b → a = b) :
    Delimited stop good fun a => body a ++ [close] := by
  classical
  have hword : Delimited (· = close) good body := by
    refine of_alphabet (p := (decide <| · ≠ close)) (fun a ha c hc => ?_) (fun b hb => ?_) hinj
    · have hne : c ≠ close := fun h => hbody a ha (h ▸ hc)
      simp [hne]
    · simp [hb]
  have hstops (z : List τ) : Stops (· = close) ([close] ++ z) := by
    apply stops_cons
    rfl
  intro a b x y ha hb _ _ h
  rw [List.append_assoc, List.append_assoc] at h
  obtain ⟨rfl, hrest⟩ := hword a b _ _ ha hb (hstops x) (hstops y) h
  exact ⟨rfl, (List.cons.inj hrest).2⟩

theorem mono {stop' : τ → Prop} {good' : α → Prop} (h : Delimited stop good enc)
    (hstop : ∀ b, stop' b → stop b) (hgood : ∀ a, good' a → good a) :
    Delimited stop' good' enc := fun a b x y ha hb hx hy =>
  h a b x y (hgood a ha) (hgood b hb) (fun c hc => hstop c (hx c hc)) fun c hc => hstop c (hy c hc)

/-- A fixed text in front changes nothing. -/
theorem consText (w : List τ) (h : Delimited stop good enc) :
    Delimited stop good fun a => w ++ enc a := by
  intro a b x y ha hb hx hy heq
  rw [List.append_assoc, List.append_assoc] at heq
  exact h a b x y ha hb hx hy (List.append_cancel_left heq)

theorem comap {f : β → α} (hf : Function.Injective f) (h : Delimited stop good enc) :
    Delimited stop (fun b => good (f b)) fun b => enc (f b) := by
  intro a b x y ha hb hx hy heq
  obtain ⟨hab, hxy⟩ := h (f a) (f b) x y ha hb hx hy heq
  exact ⟨hf hab, hxy⟩

/-! ### Codes in sequence -/

/-- Two codes, the second of which begins like what may follow the first. -/
theorem append {stop' : τ → Prop} {good' : β → Prop} {enc' : β → List τ}
    (h : Delimited stop good enc) (h' : Delimited stop' good' enc')
    (hnext : ∀ b x, good' b → Stops stop' x → Stops stop (enc' b ++ x)) :
    Delimited stop' (fun p : α × β => good p.1 ∧ good' p.2) fun p => enc p.1 ++ enc' p.2 := by
  rintro ⟨a, b⟩ ⟨a', b'⟩ x y ⟨ha, hb⟩ ⟨ha', hb'⟩ hx hy heq
  rw [List.append_assoc, List.append_assoc] at heq
  obtain ⟨rfl, hrest⟩ := h a a' _ _ ha ha' (hnext b x hb hx) (hnext b' y hb' hy) heq
  obtain ⟨rfl, hxy⟩ := h' b b' x y hb hb' hx hy hrest
  exact ⟨rfl, hxy⟩

/-- The items behind the first, each with a separator before it, and the closing symbol. -/
def closing (enc : α → List τ) (sep close : τ) (as : List α) : List τ :=
  as.flatMap (fun a => sep :: enc a) ++ [close]

theorem stops_closing {sep close : τ} (hsep : stop sep) (hclose : stop close) (as : List α)
    (x : List τ) : Stops stop (closing enc sep close as ++ x) := by
  cases as with
  | nil => exact stops_cons hclose x
  | cons a as => exact stops_cons hsep _

theorem delimited_closing {stop' : τ → Prop} (h : Delimited stop good enc) {sep close : τ}
    (hne : sep ≠ close) (hsep : stop sep) (hclose : stop close) :
    Delimited stop' (fun as => ∀ a ∈ as, good a) (closing enc sep close) := by
  intro as
  induction as with
  | nil =>
    intro bs x y _ _ _ _ heq
    cases bs with
    | nil => exact ⟨rfl, (List.cons.inj heq).2⟩
    | cons b bs => exact absurd (List.cons.inj heq).1.symm hne
  | cons a as ih =>
    intro bs x y ha hb hx hy heq
    cases bs with
    | nil => exact absurd (List.cons.inj heq).1 hne
    | cons b bs =>
      rw [List.forall_mem_cons] at ha hb
      have htail (c : α) (cs : List α) (z : List τ) : closing enc sep close (c :: cs) ++ z
          = sep :: (enc c ++ (closing enc sep close cs ++ z)) := by
        simp [closing]
      rw [htail, htail] at heq
      obtain ⟨rfl, hrest⟩ := h a b _ _ ha.1 hb.1 (stops_closing hsep hclose as x)
        (stops_closing hsep hclose bs y) (List.cons.inj heq).2
      obtain ⟨rfl, hxy⟩ := ih bs x y ha.2 hb.2 hx hy hrest
      exact ⟨rfl, hxy⟩

theorem intercalate_append_close {sep close : τ} (a : α) (as : List α) :
    [sep].intercalate ((a :: as).map enc) ++ [close] = enc a ++ closing enc sep close as := by
  induction as generalizing a with
  | nil => simp [closing]
  | cons b bs ih =>
    have hcons : [sep].intercalate ((a :: b :: bs).map enc)
        = enc a ++ (sep :: [sep].intercalate ((b :: bs).map enc)) := by
      simp only [List.map_cons, List.intercalate_cons_cons, List.append_assoc,
        List.singleton_append]
    rw [hcons, List.append_assoc, List.cons_append, ih b]
    simp [closing]

/-- **Lists with separators**: the items end at the separator and at the closing symbol, and none of
them begins with the closing symbol. -/
theorem separated {stop' : τ → Prop} (h : Delimited stop good enc) {sep close : τ}
    (hne : sep ≠ close) (hsep : stop sep) (hclose : stop close)
    (hstart : ∀ a, good a → ∃ c cs, enc a = c :: cs ∧ c ≠ close) :
    Delimited stop' (fun as => ∀ a ∈ as, good a)
      fun as : List α => [sep].intercalate (as.map enc) ++ [close] := by
  intro as bs x y ha hb hx hy heq
  have hnil (c : α) (cs : List α) (hc : good c) (z z' : List τ) :
      [close] ++ z ≠ [sep].intercalate ((c :: cs).map enc) ++ [close] ++ z' := by
    obtain ⟨d, ds, hd, hdne⟩ := hstart c hc
    rw [intercalate_append_close, hd]
    exact fun h => hdne (List.cons.inj h).1.symm
  cases as with
  | nil =>
    cases bs with
    | nil => exact ⟨rfl, (List.cons.inj heq).2⟩
    | cons b bs => exact absurd heq (hnil b bs (hb b List.mem_cons_self) x y)
  | cons a as =>
    cases bs with
    | nil => exact absurd heq.symm (hnil a as (ha a List.mem_cons_self) y x)
    | cons b bs =>
      rw [List.forall_mem_cons] at ha hb
      dsimp only at heq
      rw [intercalate_append_close, intercalate_append_close, List.append_assoc,
        List.append_assoc] at heq
      obtain ⟨rfl, hrest⟩ := h a b _ _ ha.1 hb.1 (stops_closing hsep hclose as x)
        (stops_closing hsep hclose bs y) heq
      obtain ⟨rfl, hxy⟩ := delimited_closing h hne hsep hclose as bs x y ha.2 hb.2 hx hy hrest
      exact ⟨rfl, hxy⟩

/-- **A run of codes that are not empty shows all of them.** -/
theorem flatMap_injective (h : Delimited (fun _ => True) good enc)
    (hne : ∀ a, good a → enc a ≠ []) {as bs : List α} (ha : ∀ a ∈ as, good a)
    (hb : ∀ b ∈ bs, good b) (heq : as.flatMap enc = bs.flatMap enc) : as = bs := by
  have hstops (x : List τ) : Stops (fun _ => True) x := fun _ _ => trivial
  induction as generalizing bs with
  | nil =>
    cases bs with
    | nil => rfl
    | cons b bs =>
      have hnil := (List.append_eq_nil_iff.1 (heq.symm.trans List.flatMap_nil)).1
      exact absurd hnil (hne b (hb b List.mem_cons_self))
  | cons a as ih =>
    cases bs with
    | nil =>
      have hnil := (List.append_eq_nil_iff.1 (heq.trans List.flatMap_nil)).1
      exact absurd hnil (hne a (ha a List.mem_cons_self))
    | cons b bs =>
      rw [List.forall_mem_cons] at ha hb
      obtain ⟨rfl, hrest⟩ := h a b _ _ ha.1 hb.1 (hstops _) (hstops _) heq
      rw [ih ha.2 hb.2 hrest]

end Delimited
