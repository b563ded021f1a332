import Mathlib.Data.List.Forall2
import Sidlc.Library.StateExcept

/-!
# Byte formats described by cells

A format lays a value out as a list of `Cell`s: literal bytes, and flags, which a reader takes from
any byte (non-zero means set) and a writer puts down as `0` or `1`. `Writes` says that a writer
puts down exactly the canonical bytes of a layout, `Reads` that a reader accepts exactly the bytes
that match the layout of its result and leaves the rest of the input alone. Both compose along
sequences (`Writes.append`, `Reads.step`), repetitions (`Writes.flatMap`, `Reads.collectN`) and
relabelling (`Writes.congr`, `Reads.congr`).
-/

namespace CellFormat

open StateExcept

/-- One byte of a layout. -/
inductive Cell where
  | byte (b : UInt8)
  | flag (c : Bool)
  deriving DecidableEq

namespace Cell

/-- The bytes a reader takes for the cell. -/
def Accepts : Cell → UInt8 → Prop
  | byte b, x => x = b
  | flag c, x => (x != 0) = c

/-- The byte a writer puts down for the cell. -/
def canonical : Cell → UInt8
  | byte b => b
  | flag c => if c then 1 else 0

/-- The byte is one a writer could have put down: a flag is `0` or `1`. -/
def Strict : Cell → UInt8 → Prop
  | byte _, _ => True
  | flag _, x => x ≤ 1

theorem accepts_canonical (c : Cell) : c.Accepts c.canonical := by
  cases c with
  | byte b => rfl
  | flag c => cases c <;> rfl

/-- An accepted byte is the canonical one exactly when it is strict. -/
theorem eq_canonical_iff {c : Cell} {x : UInt8} (h : c.Accepts x) :
    x = c.canonical ↔ c.Strict x := by
  cases c with
  | byte b => exact ⟨fun _ => trivial, fun _ => h⟩
  | flag c =>
    have hx : (x != 0) = c := h
    subst hx
    have hlt := x.toNat_lt
    by_cases h0 : x = 0
    · simp [canonical, Strict, h0]
    · have hne : x.toNat ≠ 0 := fun hz => h0 (UInt8.toNat_inj.1 hz)
      simp only [canonical, Strict, bne_iff_ne, ne_eq, h0, not_false_eq_true, if_true,
        ← UInt8.toNat_inj, UInt8.le_iff_toNat_le]
      change x.toNat = 1 ↔ x.toNat ≤ 1
      omega

end Cell

/-- `bs` are bytes a reader accepts for the layout `cs`. -/
def Matches (cs : List Cell) (bs : List UInt8) : Prop :=
  List.Forall₂ Cell.Accepts cs bs

/-- The bytes a writer puts down for the layout `cs`. -/
def encode (cs : List Cell) : List UInt8 :=
  cs.map Cell.canonical

/-- The layout of a run of literal bytes. -/
def literal (bs : List UInt8) : List Cell :=
  bs.map Cell.byte

@[simp] theorem encode_append (cs ds : List Cell) : encode (cs ++ ds) = encode cs ++ encode ds :=
  List.map_append ..

@[simp] theorem encode_nil : encode [] = [] :=
  rfl

@[simp] theorem encode_literal (bs : List UInt8) : encode (literal bs) = bs := by
  rw [encode, literal, List.map_map]
  exact List.map_id bs

@[simp] theorem length_encode (cs : List Cell) : (encode cs).length = cs.length :=
  List.length_map ..

theorem matches_encode (cs : List Cell) : Matches cs (encode cs) := by
  induction cs with
  | nil => exact .nil
  | cons c cs ih => exact .cons c.accepts_canonical ih

theorem matches_literal_iff {bs xs : List UInt8} : Matches (literal bs) xs ↔ xs = bs := by
  induction bs generalizing xs with
  | nil => exact List.forall₂_nil_left_iff
  | cons b bs ih =>
    constructor
    · rintro (_ | ⟨hb, hbs⟩)
      rw [show _ = b from hb, ih.1 hbs]
    · rintro rfl
      exact .cons rfl (ih.2 rfl)

theorem Matches.append {cs ds : List Cell} {xs ys : List UInt8} (h₁ : Matches cs xs)
    (h₂ : Matches ds ys) : Matches (cs ++ ds) (xs ++ ys) :=
  List.rel_append h₁ h₂

theorem matches_append_iff {cs ds : List Cell} {xs : List UInt8} :
    Matches (cs ++ ds) xs ↔ ∃ ys zs, xs = ys ++ zs ∧ Matches cs ys ∧ Matches ds zs := by
  constructor
  · intro h
    refine ⟨xs.take cs.length, xs.drop cs.length, (List.take_append_drop ..).symm, ?_, ?_⟩
    · exact List.forall₂_take_append xs cs ds h.flip |>.flip
    · exact List.forall₂_drop_append xs cs ds h.flip |>.flip
  · rintro ⟨ys, zs, rfl, h₁, h₂⟩
    exact h₁.append h₂

theorem Matches.length_eq {cs : List Cell} {xs : List UInt8} (h : Matches cs xs) :
    xs.length = cs.length :=
  (List.Forall₂.length_eq h).symm

/-- Accepted bytes are the canonical ones exactly when all of them are strict. -/
theorem Matches.eq_encode_iff {cs : List Cell} {xs : List UInt8} (h : Matches cs xs) :
    xs = encode cs ↔ List.Forall₂ Cell.Strict cs xs := by
  induction h with
  | nil => simp
  | cons hc _ ih =>
    rw [encode, List.map_cons, List.cons.injEq, List.forall₂_cons, Cell.eq_canonical_iff hc, ← ih,
      encode]

/-- Strictness is a matter of the bytes under the flags. -/
theorem Matches.strict_iff {cs : List Cell} {xs : List UInt8} (h : Matches cs xs) :
    List.Forall₂ Cell.Strict cs xs ↔
      ∀ (i : Nat) (c : Bool) (x : UInt8), cs[i]? = some (.flag c) → xs[i]? = some x → x ≤ 1 := by
  induction h with
  | nil => simp
  | @cons cell x cs xs hc _ ih =>
    rw [List.forall₂_cons, ih]
    constructor
    · rintro ⟨hcell, hrest⟩ (_ | i) c y hi hy
      · obtain rfl := Option.some.inj hi
        obtain rfl := Option.some.inj hy
        exact hcell
      · exact hrest i c y hi hy
    · intro hall
      refine ⟨?_, fun i => hall (i + 1)⟩
      cases cell with
      | byte b => trivial
      | flag c => exact hall 0 c x rfl rfl

/-! ### Writers -/

variable {ε α β γ : Type}

/-- A writer: the bytes put down, or the exception raised instead. -/
abbrev ByteWriter (ε : Type) := Except ε (List UInt8)

instance : Append (ByteWriter ε) where
  append
    | .ok xs, .ok ys => .ok (xs ++ ys)
    | .ok _, .error e => .error e
    | .error e, _ => .error e

/-- `w` succeeds exactly when `fits` and puts down the canonical bytes of `cs`. -/
def Writes (w : ByteWriter ε) (cs : List Cell) (fits : Prop) : Prop :=
  ∀ bs, w = .ok bs ↔ fits ∧ bs = encode cs

theorem append_eq_ok {x y : ByteWriter ε} {bs : List UInt8} :
    x ++ y = .ok bs ↔ ∃ xs ys, x = .ok xs ∧ y = .ok ys ∧ bs = xs ++ ys := by
  cases x with
  | error e =>
    change Except.error e = _ ↔ _
    simp
  | ok xs =>
    cases y with
    | error e =>
      change Except.error e = _ ↔ _
      simp
    | ok ys =>
      change Except.ok (xs ++ ys) = _ ↔ _
      simp [eq_comm]

theorem append_eq_error {x y : ByteWriter ε} {e : ε} :
    x ++ y = .error e ↔ x = .error e ∨ ∃ xs, x = .ok xs ∧ y = .error e := by
  cases x with
  | error e' =>
    change Except.error e' = _ ↔ _
    simp
  | ok xs =>
    cases y with
    | error e' =>
      change Except.error e' = _ ↔ _
      simp
    | ok ys =>
      change Except.ok (xs ++ ys) = _ ↔ _
      simp

theorem Writes.append {x y : ByteWriter ε} {cs ds : List Cell} {p q : Prop} (hx : Writes x cs p)
    (hy : Writes y ds q) : Writes (x ++ y) (cs ++ ds) (p ∧ q) := by
  intro bs
  rw [append_eq_ok, encode_append]
  constructor
  · rintro ⟨xs, ys, h₁, h₂, rfl⟩
    obtain ⟨hp, rfl⟩ := (hx xs).1 h₁
    obtain ⟨hq, rfl⟩ := (hy ys).1 h₂
    exact ⟨⟨hp, hq⟩, rfl⟩
  · rintro ⟨⟨hp, hq⟩, rfl⟩
    exact ⟨_, _, (hx _).2 ⟨hp, rfl⟩, (hy _).2 ⟨hq, rfl⟩, rfl⟩

/-- A first part that never fails puts no condition on the sequence. -/
theorem Writes.append_of_true {x y : ByteWriter ε} {cs ds : List Cell} {q : Prop}
    (hx : Writes x cs True) (hy : Writes y ds q) : Writes (x ++ y) (cs ++ ds) q := by
  intro bs
  rw [hx.append hy bs, true_and]

theorem Writes.congr {x : ByteWriter ε} {cs ds : List Cell} {p q : Prop} (hx : Writes x cs p)
    (hc : cs = ds) (hp : p ↔ q) : Writes x ds q := by
  intro bs
  rw [hx, hc, hp]

theorem Writes.pure (bs : List UInt8) : Writes (.ok bs : ByteWriter ε) (literal bs) True := by
  intro xs
  simp [eq_comm]

theorem ok_nil_append (w : ByteWriter ε) : (.ok [] : ByteWriter ε) ++ w = w := by
  cases w with
  | error e => rfl
  | ok bs => rfl

theorem append_ok_nil (w : ByteWriter ε) : w ++ (.ok [] : ByteWriter ε) = w := by
  cases w with
  | error e => rfl
  | ok bs => exact congrArg Except.ok (List.append_nil bs)

theorem writer_append_assoc (x y z : ByteWriter ε) : x ++ y ++ z = x ++ (y ++ z) := by
  cases x with
  | error e => rfl
  | ok xs =>
    cases y with
    | error e => rfl
    | ok ys =>
      cases z with
      | error e => rfl
      | ok zs => exact congrArg Except.ok (List.append_assoc xs ys zs)

/-- Writes the elements of a list one after the other. -/
def writeEach (w : α → ByteWriter ε) : List α → ByteWriter ε
  | [] => .ok []
  | x :: xs => w x ++ writeEach w xs

theorem writeEach_append (w : α → ByteWriter ε) (xs ys : List α) :
    writeEach w (xs ++ ys) = writeEach w xs ++ writeEach w ys := by
  induction xs with
  | nil => rw [List.nil_append, writeEach, ok_nil_append]
  | cons x xs ih => rw [List.cons_append, writeEach, writeEach, ih, writer_append_assoc]

theorem Writes.each {w : α → ByteWriter ε} {layout : α → List Cell} {fits : α → Prop}
    (hw : ∀ x, Writes (w x) (layout x) (fits x)) (xs : List α) :
    Writes (writeEach w xs) (xs.flatMap layout) (∀ x ∈ xs, fits x) := by
  induction xs with
  | nil => exact (Writes.pure []).congr rfl (by simp)
  | cons x xs ih => exact ((hw x).append ih).congr (List.flatMap_cons ..).symm (by simp)

theorem Writes.ok {w : ByteWriter ε} {cs : List Cell} {p : Prop} (h : Writes w cs p) (hp : p) :
    w = .ok (encode cs) :=
  (h _).2 ⟨hp, rfl⟩

/-- When a writer succeeds does not depend on how the condition is put. -/
theorem Writes.fits_iff {w : ByteWriter ε} {cs ds : List Cell} {p q : Prop} (h : Writes w cs p)
    (h' : Writes w ds q) : p ↔ q := by
  constructor
  · exact fun hp => ((h' _).1 (h.ok hp)).1
  · exact fun hq => ((h _).1 (h'.ok hq)).1

/-! ### Streams -/

/-- What the writers leave on a stream, up to the one that fails, and how they end. -/
def streamEach (w : α → ByteWriter ε) : List α → List UInt8 × Except ε Unit
  | [] => ([], .ok ())
  | x :: xs =>
    match w x with
    | .error e => ([], .error e)
    | .ok bs => (bs ++ (streamEach w xs).1, (streamEach w xs).2)

theorem streamEach_cons_of_ok {w : α → ByteWriter ε} {x : α} {bs : List UInt8}
    (h : w x = .ok bs) (xs : List α) :
    streamEach w (x :: xs) = (bs ++ (streamEach w xs).1, (streamEach w xs).2) := by
  rw [streamEach, h]

theorem streamEach_cons_of_error {w : α → ByteWriter ε} {x : α} {e : ε} (h : w x = .error e)
    (xs : List α) : streamEach w (x :: xs) = ([], .error e) := by
  rw [streamEach, h]

/-- Writers that all succeed leave what they write. -/
theorem streamEach_of_ok {w : α → ByteWriter ε} {xs : List α} {bs : List UInt8}
    (h : writeEach w xs = .ok bs) : streamEach w xs = (bs, .ok ()) := by
  induction xs generalizing bs with
  | nil =>
    rw [← Except.ok.inj h]
    rfl
  | cons x xs ih =>
    obtain ⟨bs₁, bs₂, h₁, h₂, rfl⟩ := append_eq_ok.1 h
    rw [streamEach_cons_of_ok h₁, ih h₂]

/-- Writers one of which fails end with its exception. -/
theorem streamEach_of_error {w : α → ByteWriter ε} {xs : List α} {e : ε}
    (h : writeEach w xs = .error e) : ∃ bs, streamEach w xs = (bs, .error e) := by
  induction xs with
  | nil => exact absurd h (by simp [writeEach])
  | cons x xs ih =>
    rw [writeEach, append_eq_error] at h
    rcases h with hx | ⟨bs, hx, hxs⟩
    · exact ⟨[], streamEach_cons_of_error hx xs⟩
    · obtain ⟨bs', hstream⟩ := ih hxs
      exact ⟨bs ++ bs', by rw [streamEach_cons_of_ok hx, hstream]⟩

/-- **A stream keeps what was written before the first failure.** -/
theorem streamEach_fst {w : α → ByteWriter ε} {output : α → List UInt8} {fits : α → Prop}
    [DecidablePred fits] (hok : ∀ x, fits x → w x = .ok (output x))
    (herror : ∀ x, ¬ fits x → ∃ e, w x = .error e) (xs : List α) :
    (streamEach w xs).1 = (xs.takeWhile fits).flatMap output := by
  induction xs with
  | nil => rfl
  | cons x xs ih =>
    by_cases hx : fits x
    · rw [streamEach_cons_of_ok (hok x hx), List.takeWhile_cons_of_pos (by simpa using hx),
        List.flatMap_cons, ih]
    · obtain ⟨e, he⟩ := herror x hx
      rw [streamEach_cons_of_error he, List.takeWhile_cons_of_neg (by simpa using hx)]
      rfl

/-! ### Readers -/

/-- A reader: a value and what is left of the input, or the exception raised. -/
abbrev ByteReader (ε : Type) := StateT (List UInt8) (Except ε)

/-- `r` accepts exactly the bytes that match the layout of a good value, returns that value and
leaves the rest of the input. -/
def Reads (r : ByteReader ε α) (layout : α → List Cell) (good : α → Prop) : Prop :=
  ∀ input a rest, r input = .ok (a, rest) ↔
    good a ∧ ∃ used, input = used ++ rest ∧ Matches (layout a) used

theorem Reads.congr {r : ByteReader ε α} {layout layout' : α → List Cell} {good good' : α → Prop}
    (h : Reads r layout good) (hl : ∀ a, good a → layout a = layout' a)
    (hg : ∀ a, good a ↔ good' a) : Reads r layout' good' := by
  intro input a rest
  rw [h, ← hg]
  exact and_congr_right fun ha => by rw [hl a ha]

/-- What a reader takes does not depend on what stands behind it. -/
theorem Reads.extend {r : ByteReader ε α} {layout : α → List Cell} {good : α → Prop}
    (h : Reads r layout good) {input rest : List UInt8} {a : α} (hr : r input = .ok (a, rest))
    (more : List UInt8) : r (input ++ more) = .ok (a, rest ++ more) := by
  obtain ⟨ha, used, rfl, hused⟩ := (h ..).1 hr
  exact (h ..).2 ⟨ha, used, List.append_assoc .., hused⟩

/-- The end of a sequence: everything that is `known` of the result pins it down. -/
theorem Reads.done {a : β} {known : β → Prop} (h : ∀ b, known b ↔ b = a) :
    Reads (pure a : ByteReader ε β) (fun _ => []) fun b => known b ∧ True := by
  intro input b rest
  simp only [pure_eq_ok, h, and_true, Matches, List.forall₂_nil_left_iff, exists_eq_right,
    List.nil_append]
  exact and_congr_right fun _ => eq_comm

/-- One step of a sequence: the value read is the part `part b` of the final result `b`, and what
follows may use that. -/
theorem Reads.step {r : ByteReader ε α} {f : α → ByteReader ε β} {la : α → List Cell}
    {ga : α → Prop} {lb : β → List Cell} {known gb : β → Prop} (part : β → α) (hr : Reads r la ga)
    (hf : ∀ a, Reads (f a) lb fun b => (known b ∧ part b = a) ∧ gb b) :
    Reads (r >>= f) (fun b => la (part b) ++ lb b) fun b => known b ∧ ga (part b) ∧ gb b := by
  intro input b rest
  rw [bind_eq_ok]
  constructor
  · rintro ⟨a, mid, hra, hfa⟩
    obtain ⟨ha, xs, rfl, hxs⟩ := (hr ..).1 hra
    obtain ⟨⟨⟨hk, rfl⟩, hb⟩, ys, rfl, hys⟩ := (hf a ..).1 hfa
    exact ⟨⟨hk, ha, hb⟩, xs ++ ys, by rw [List.append_assoc], hxs.append hys⟩
  · rintro ⟨⟨hk, ha, hb⟩, used, rfl, hused⟩
    obtain ⟨xs, ys, rfl, hxs, hys⟩ := matches_append_iff.1 hused
    refine ⟨part b, ys ++ rest, (hr ..).2 ⟨ha, xs, by rw [List.append_assoc], hxs⟩, ?_⟩
    exact (hf (part b) ..).2 ⟨⟨⟨hk, rfl⟩, hb⟩, ys, rfl, hys⟩

/-- The first step of a sequence, where nothing is known yet. -/
theorem Reads.first {r : ByteReader ε α} {f : α → ByteReader ε β} {la : α → List Cell}
    {ga : α → Prop} {lb : β → List Cell} {gb : β → Prop} (part : β → α) (hr : Reads r la ga)
    (hf : ∀ a, Reads (f a) lb fun b => (True ∧ part b = a) ∧ gb b) :
    Reads (r >>= f) (fun b => la (part b) ++ lb b) fun b => True ∧ ga (part b) ∧ gb b :=
  Reads.step part hr hf

/-- A step whose result nothing uses. -/
theorem Reads.skip {r : ByteReader ε α} {x : ByteReader ε β} {cells : List Cell} {ga : α → Prop}
    {lb : β → List Cell} {gb : β → Prop} (hr : Reads r (fun _ => cells) ga) (ha : ∃ a, ga a)
    (hx : Reads x lb gb) : Reads (r >>= fun _ => x) (fun b => cells ++ lb b) gb := by
  intro input b rest
  rw [bind_eq_ok]
  constructor
  · rintro ⟨a, mid, hra, hxb⟩
    obtain ⟨-, xs, rfl, hxs⟩ := (hr ..).1 hra
    obtain ⟨hb, ys, rfl, hys⟩ := (hx ..).1 hxb
    exact ⟨hb, xs ++ ys, (List.append_assoc ..).symm, hxs.append hys⟩
  · rintro ⟨hb, used, rfl, hused⟩
    obtain ⟨xs, ys, rfl, hxs, hys⟩ := matches_append_iff.1 hused
    obtain ⟨a, ha⟩ := ha
    exact ⟨a, ys ++ rest, (hr ..).2 ⟨ha, xs, List.append_assoc .., hxs⟩,
      (hx ..).2 ⟨hb, ys, rfl, hys⟩⟩

/-- A check in the middle of a sequence: what is `known` there decides it. -/
theorem Reads.guard {c : Prop} [Decidable c] {e : ε} {x : ByteReader ε β} {lb : β → List Cell}
    {known gb : β → Prop} (gc : β → Prop) (hc : ∀ b, known b → (gc b ↔ ¬ c))
    (hx : Reads x lb fun b => known b ∧ gb b) :
    Reads (throwIf c e >>= fun _ => x) lb fun b => known b ∧ gc b ∧ gb b := by
  intro input b rest
  simp only [bind_eq_ok, throwIf_eq_ok]
  constructor
  · rintro ⟨_, _, ⟨hnc, rfl⟩, h⟩
    obtain ⟨⟨hk, hg⟩, hused⟩ := (hx ..).1 h
    exact ⟨⟨hk, (hc b hk).2 hnc, hg⟩, hused⟩
  · rintro ⟨⟨hk, hgc, hg⟩, hused⟩
    exact ⟨(), input, ⟨(hc b hk).1 hgc, rfl⟩, (hx ..).2 ⟨⟨hk, hg⟩, hused⟩⟩

/-- A step that has to read the value `a`. -/
theorem Reads.expect [DecidableEq α] {e : ε} {r : ByteReader ε α} {x : ByteReader ε β}
    {la : α → List Cell} {ga : α → Prop} {lb : β → List Cell} {gb : β → Prop} {a : α}
    (hr : Reads r la ga) (ha : ga a) (hx : Reads x lb gb) :
    Reads (r >>= fun b => throwIf (b ≠ a) e >>= fun _ => x) (fun b => la a ++ lb b) gb := by
  intro input b rest
  simp only [bind_eq_ok, throwIf_eq_ok, not_ne_iff]
  constructor
  · rintro ⟨_, mid, hra, _, _, ⟨rfl, rfl⟩, hxb⟩
    obtain ⟨-, xs, rfl, hxs⟩ := (hr ..).1 hra
    obtain ⟨hb, ys, rfl, hys⟩ := (hx ..).1 hxb
    exact ⟨hb, xs ++ ys, (List.append_assoc ..).symm, hxs.append hys⟩
  · rintro ⟨hb, used, rfl, hused⟩
    obtain ⟨xs, ys, rfl, hxs, hys⟩ := matches_append_iff.1 hused
    exact ⟨a, ys ++ rest, (hr ..).2 ⟨ha, xs, List.append_assoc .., hxs⟩, (), _, ⟨rfl, rfl⟩,
      (hx ..).2 ⟨hb, ys, rfl, hys⟩⟩

/-- Wrapping the value read, as one alternative of a tagged union does. -/
theorem Reads.wrap {r : ByteReader ε α} {la : α → List Cell} {ga : α → Prop} {lb : β → List Cell}
    {gb : β → Prop} (f : α → β) (hr : Reads r la ga) (hl : ∀ a, lb (f a) = la a)
    (hg : ∀ b, gb b ↔ ∃ a, b = f a ∧ ga a) : Reads (r >>= fun a => pure (f a)) lb gb := by
  intro input b rest
  rw [bind_eq_ok, hg]
  constructor
  · rintro ⟨a, mid, hra, h⟩
    obtain ⟨rfl, rfl⟩ := pure_eq_ok.1 h
    obtain ⟨ha, hused⟩ := (hr ..).1 hra
    exact ⟨⟨a, rfl, ha⟩, by rwa [hl]⟩
  · rintro ⟨⟨a, rfl, ha⟩, hused⟩
    rw [hl] at hused
    exact ⟨a, rest, (hr ..).2 ⟨ha, hused⟩, pure_eq_ok.2 ⟨rfl, rfl⟩⟩

/-- The alternative that no value has. -/
theorem Reads.fail {e : ε} {lb : β → List Cell} {gb : β → Prop} (h : ∀ b, ¬ gb b) :
    Reads (throw e : ByteReader ε β) lb gb :=
  fun _ b _ => iff_of_false throw_ne_ok fun hb => h b hb.1

/-- `n` rounds of a reader read a list of length `n`. -/
theorem Reads.collectN {r : ByteReader ε α} {layout : α → List Cell} {good : α → Prop}
    (h : Reads r layout good) (n : Nat) :
    Reads (StateExcept.collectN r n) (fun xs => xs.flatMap layout)
      fun xs => xs.length = n ∧ ∀ x ∈ xs, good x := by
  induction n with
  | zero =>
    have hdone : ∀ xs : List α, xs.length = 0 ↔ xs = [] := fun _ => List.length_eq_zero_iff
    refine (Reads.done hdone).congr (fun xs hxs => ?_) fun xs => ?_
    · simp [List.length_eq_zero_iff.1 hxs.1]
    · constructor
      · rintro ⟨h0, -⟩; exact ⟨h0, by simp [List.length_eq_zero_iff.1 h0]⟩
      · rintro ⟨h0, -⟩; exact ⟨h0, trivial⟩
  | succ n ih =>
    intro input xs rest
    simp only [StateExcept.collectN, bind_eq_ok, pure_eq_ok]
    constructor
    · rintro ⟨x, mid, hx, ys, mid', hys, rfl, rfl⟩
      obtain ⟨hgx, u, rfl, hu⟩ := (h ..).1 hx
      obtain ⟨⟨rfl, hgys⟩, v, rfl, hv⟩ := (ih ..).1 hys
      refine ⟨⟨rfl, by simpa using ⟨hgx, hgys⟩⟩, u ++ v, by rw [List.append_assoc], ?_⟩
      rw [List.flatMap_cons]
      exact hu.append hv
    · rintro ⟨⟨hlen, hg⟩, used, rfl, hused⟩
      obtain ⟨x, ys, rfl⟩ := List.exists_cons_of_length_eq_add_one hlen
      rw [List.flatMap_cons] at hused
      obtain ⟨u, v, rfl, hu, hv⟩ := matches_append_iff.1 hused
      rw [List.forall_mem_cons] at hg
      refine ⟨x, v ++ rest, (h ..).2 ⟨hg.1, u, by rw [List.append_assoc], hu⟩, ys, rest,
        (ih ..).2 ⟨⟨by simpa using hlen, hg.2⟩, v, rfl, hv⟩, rfl, rfl⟩

/-- What a writer puts down, its reader gives back, whatever follows. -/
theorem Reads.of_encode {r : ByteReader ε α} {layout : α → List Cell} {good : α → Prop}
    (h : Reads r layout good) {a : α} (ha : good a) (rest : List UInt8) :
    r (encode (layout a) ++ rest) = .ok (a, rest) :=
  (h ..).2 ⟨ha, _, rfl, matches_encode _⟩

/-- Good values with the same canonical bytes are equal: a layout that can be read is
injective. -/
theorem Reads.encode_injective {r : ByteReader ε α} {layout : α → List Cell} {good : α → Prop}
    (h : Reads r layout good) {a b : α} (ha : good a) (hb : good b) {xs ys : List UInt8}
    (heq : encode (layout a) ++ xs = encode (layout b) ++ ys) : a = b ∧ xs = ys := by
  have h₁ := h.of_encode ha xs
  rw [heq, h.of_encode hb ys] at h₁
  simpa [eq_comm] using h₁

end CellFormat
