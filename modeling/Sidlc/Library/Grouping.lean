import Mathlib.Data.List.Induction

/-!
# Definitions before their uses, and grouping by kind

A sequence of definitions keeps to an order in which no element uses a later one, when every use
has its definition before it and no name is defined twice (`DefinedFirst.pairwise`). To collect the
elements of each kind, kind after kind, keeps to the order exactly when no element uses one of a
kind that comes later (`pairwise_flatMap_grouped_iff`).
-/

namespace Grouping

variable {α ν κ : Type}

/-! ### Definitions and uses -/

section Uses

variable (name : α → Option ν) (uses : α → List ν)

/-- `x` uses the name that `y` defines. -/
def Uses (x y : α) : Prop :=
  ∃ n ∈ uses x, name y = some n

/-- What an element uses is defined by an element before it. -/
def DefinedFirst (xs : List α) : Prop :=
  ∀ before x after, xs = before ++ x :: after → ∀ n ∈ uses x, ∃ y ∈ before, name y = some n

variable {name uses}

theorem definedFirst_nil : DefinedFirst name uses ([] : List α) := by
  rintro before x after h
  exact absurd h (by simp)

theorem definedFirst_concat {xs : List α} {x : α} (h : DefinedFirst name uses xs)
    (hx : ∀ n ∈ uses x, ∃ y ∈ xs, name y = some n) : DefinedFirst name uses (xs ++ [x]) := by
  rintro before z after heq
  rcases List.eq_nil_or_concat after with rfl | ⟨after, w, rfl⟩
  · obtain ⟨rfl, hz⟩ := List.append_inj' heq rfl
    obtain rfl := List.singleton_inj.1 hz
    exact hx
  · rw [List.concat_eq_append, ← List.cons_append, ← List.append_assoc] at heq
    exact h before z after (List.append_inj' heq rfl).1

theorem DefinedFirst.of_append {xs ys : List α} (h : DefinedFirst name uses (xs ++ ys)) :
    DefinedFirst name uses xs := by
  rintro before x after rfl n hn
  exact h before x (after ++ ys) (by simp) n hn

/-- **Nothing uses a later definition** when uses are behind definitions and names are distinct. -/
theorem DefinedFirst.pairwise {xs : List α} (h : DefinedFirst name uses xs)
    (hdistinct : (xs.filterMap name).Nodup) : xs.Pairwise fun x y => ¬ Uses name uses x y := by
  induction xs using List.reverseRecOn with
  | nil => exact .nil
  | append_singleton xs y ih =>
    rw [List.filterMap_append, List.nodup_append] at hdistinct
    refine List.pairwise_append.2 ⟨ih h.of_append hdistinct.1, List.pairwise_singleton .., ?_⟩
    rintro x hx z hz ⟨n, hn, hz'⟩
    rw [List.mem_singleton] at hz
    subst hz
    -- the name that `x` uses is defined before `x` already
    obtain ⟨before, after, rfl⟩ := List.append_of_mem hx
    obtain ⟨w, hw, hw'⟩ := h.of_append before x after rfl n hn
    have hfirst : n ∈ (before ++ x :: after).filterMap name :=
      List.mem_filterMap.2 ⟨w, List.mem_append_left _ hw, hw'⟩
    have hsecond : n ∈ [z].filterMap name :=
      List.mem_filterMap.2 ⟨z, List.mem_singleton_self z, hz'⟩
    exact hdistinct.2.2 n hfirst n hsecond rfl

end Uses

/-! ### Grouping -/

section Groups

variable [DecidableEq κ] (kind : α → κ) (kinds : List κ)

/-- The elements of the first kind, then those of the second, and so on. -/
def grouped (xs : List α) : List α :=
  kinds.flatMap fun k => xs.filter fun x => kind x = k

/-- No element stands in the way of one of an earlier kind. -/
def KindsApart (R : α → α → Prop) (xs : List α) : Prop :=
  kinds.Pairwise fun k l => ∀ x ∈ xs, kind x = k → ∀ y ∈ xs, kind y = l → R x y

variable {kind kinds} {R : α → α → Prop}

theorem mem_of_mem_grouped {xs : List α} {x : α} (h : x ∈ grouped kind kinds xs) : x ∈ xs := by
  obtain ⟨k, -, hx⟩ := List.mem_flatMap.1 h
  exact (List.mem_filter.1 hx).1

/-- In a sequence that keeps to an order, only different kinds can be the wrong way round. -/
theorem pairwise_grouped_iff {xs : List α} (h : xs.Pairwise R) :
    (grouped kind kinds xs).Pairwise R ↔ KindsApart kind kinds R xs := by
  rw [grouped, List.pairwise_flatMap, KindsApart, and_iff_right fun _ _ => h.filter _]
  have hfilter (k l : κ) :
      (∀ x ∈ xs.filter (fun x => kind x = k), ∀ y ∈ xs.filter (fun y => kind y = l), R x y) ↔
        ∀ x ∈ xs, kind x = k → ∀ y ∈ xs, kind y = l → R x y := by
    simp only [List.mem_filter, decide_eq_true_eq, and_imp]
  simp only [hfilter]

/-- **Grouping in blocks keeps to an order** exactly when in every block it does. -/
theorem pairwise_flatMap_grouped_iff {xss : List (List α)} (h : xss.flatten.Pairwise R) :
    (xss.flatMap (grouped kind kinds)).Pairwise R ↔ ∀ xs ∈ xss, KindsApart kind kinds R xs := by
  rw [List.pairwise_flatten] at h
  rw [List.pairwise_flatMap]
  have hblocks : xss.Pairwise fun xs ys =>
      ∀ x ∈ grouped kind kinds xs, ∀ y ∈ grouped kind kinds ys, R x y :=
    h.2.imp fun hR x hx y hy => hR x (mem_of_mem_grouped hx) y (mem_of_mem_grouped hy)
  rw [and_iff_left hblocks]
  exact forall₂_congr fun xs hxs => pairwise_grouped_iff (h.1 xs hxs)

end Groups

end Grouping
