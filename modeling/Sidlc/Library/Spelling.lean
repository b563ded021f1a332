import Mathlib.Data.List.Forall2
import Sidlc.Library.Printing

/-!
# Texts that spell lists

A printer works its way through a list and puts a piece of text for every element, and here and
there a piece that stands for nothing, such as a comment. `Spells spell filler xs t` says that the
text `t` is made in this way of pieces for the elements of `xs`, in order. What spells a list can be
put together from parts of it, so that the rules follow the loops of the printer.
-/

namespace Spelling

variable {χ α β : Type}

/-- The text is made of pieces for the elements, in order, with fillers anywhere between them. -/
inductive Spells (spell : α → List χ → Prop) (filler : List χ → Prop) : List α → List χ → Prop
  | nil : Spells spell filler [] []
  | cons {x : α} {xs : List α} {piece rest : List χ} (hpiece : spell x piece)
      (hrest : Spells spell filler xs rest) : Spells spell filler (x :: xs) (piece ++ rest)
  | skip {xs : List α} {piece rest : List χ} (hpiece : filler piece)
      (hrest : Spells spell filler xs rest) : Spells spell filler xs (piece ++ rest)

namespace Spells

variable {spell : α → List χ → Prop} {filler : List χ → Prop} {xs ys : List α} {s t : List χ}

theorem append (hs : Spells spell filler xs s) (ht : Spells spell filler ys t) :
    Spells spell filler (xs ++ ys) (s ++ t) := by
  induction hs with
  | nil => exact ht
  | cons hpiece _ ih =>
    rw [List.append_assoc]
    exact .cons hpiece ih
  | skip hpiece _ ih =>
    rw [List.append_assoc]
    exact .skip hpiece ih

theorem single {x : α} {piece : List χ} (h : spell x piece) : Spells spell filler [x] piece := by
  have hcons : Spells spell filler [x] (piece ++ []) := .cons h .nil
  rwa [List.append_nil] at hcons

theorem ofFiller {piece : List χ} (h : filler piece) : Spells spell filler [] piece := by
  have hskip : Spells spell filler [] (piece ++ []) := .skip h .nil
  rwa [List.append_nil] at hskip

/-- A filler, or nothing. -/
theorem optional {piece : List χ} {c : Prop} [Decidable c] (h : filler piece) :
    Spells spell filler [] (if c then piece else []) := by
  split_ifs
  · exact .ofFiller h
  · exact .nil

/-- The loop of a printer whose rounds spell parts of the list. -/
theorem flatMap {items : β → List α} {print : β → List χ} {bs : List β}
    (h : ∀ b ∈ bs, Spells spell filler (items b) (print b)) :
    Spells spell filler (bs.flatMap items) (bs.flatMap print) := by
  induction bs with
  | nil => exact .nil
  | cons b bs ih =>
    rw [List.forall_mem_cons] at h
    rw [List.flatMap_cons, List.flatMap_cons]
    exact h.1.append (ih h.2)

/-- The loop of a printer that puts a piece for every element. -/
theorem map {item : β → α} {print : β → List χ} {bs : List β}
    (h : ∀ b ∈ bs, spell (item b) (print b)) :
    Spells spell filler (bs.map item) (bs.flatMap print) := by
  induction bs with
  | nil => exact .nil
  | cons b bs ih =>
    rw [List.forall_mem_cons] at h
    exact .cons h.1 (ih h.2)

end Spells

/-- The text is made of pieces for the elements, with a separator between them. -/
def SpellsSeparated (spell : α → List χ → Prop) (separator : List χ) (xs : List α) (t : List χ) :
    Prop :=
  ∃ pieces, List.Forall₂ spell xs pieces ∧ t = Grammar.separatedBy separator id pieces

namespace SpellsSeparated

variable {spell : α → List χ → Prop} {separator : List χ}

/-- A loop that puts the separator after every element but the last. -/
theorem map {item : β → α} {print : β → List χ} {bs : List β}
    (h : ∀ b ∈ bs, spell (item b) (print b)) :
    SpellsSeparated spell separator (bs.map item) (Grammar.separatedBy separator print bs) := by
  refine ⟨bs.map print, ?_, ?_⟩
  · rw [List.forall₂_map_left_iff, List.forall₂_map_right_iff]
    exact List.forall₂_same.2 h
  · rw [Grammar.separatedBy_map]
    rfl

/-- An element in front of the others. -/
theorem cons {x : α} {xs : List α} {piece t : List χ} (hpiece : spell x piece)
    (h : SpellsSeparated spell separator xs t) :
    SpellsSeparated spell separator (x :: xs)
      (piece ++ if xs.isEmpty then [] else separator ++ t) := by
  obtain ⟨pieces, hpieces, rfl⟩ := h
  refine ⟨piece :: pieces, .cons hpiece hpieces, ?_⟩
  cases hpieces with
  | nil => exact List.append_nil piece
  | cons => rfl

end SpellsSeparated

end Spelling
