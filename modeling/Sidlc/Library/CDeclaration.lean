import Mathlib.Data.List.Basic

/-!
# Reading C types

What a C compiler makes of a type written with one type name, the qualifier `const` and `*`: a
qualifier before the name qualifies the type that the name stands for, a `*` makes a pointer to what
stands before it, and a qualifier behind a `*` qualifies that pointer.
-/

namespace CDeclaration

abbrev Text := List UInt8

def space : UInt8 := 0x20

def star : UInt8 := 0x2a

/-- `const` -/
def constWord : Text := [0x63, 0x6f, 0x6e, 0x73, 0x74]

/-! ### Words -/

/-- The word collected so far, if there is one. -/
def flush (word : Text) : List Text :=
  if word = [] then [] else [word]

/-- The words of a text behind the beginning `word` of one. Spaces separate words, and a star is a
word of its own. -/
def wordsFrom (word : Text) : Text → List Text
  | [] => flush word
  | c :: cs =>
    if c = space then flush word ++ wordsFrom [] cs
    else if c = star then flush word ++ [star] :: wordsFrom [] cs
    else wordsFrom (word ++ [c]) cs

def words (text : Text) : List Text :=
  wordsFrom [] text

/-- No spaces and stars. -/
def Solid (w : Text) : Prop :=
  ∀ c ∈ w, c ≠ space ∧ c ≠ star

instance : DecidablePred Solid := fun w =>
  List.decidableBAll _ w

theorem wordsFrom_append_space (word a b : Text) :
    wordsFrom word (a ++ space :: b) = wordsFrom word a ++ words b := by
  induction a generalizing word with
  | nil => simp [wordsFrom, words]
  | cons c a ih =>
    rw [List.cons_append]
    unfold wordsFrom
    split_ifs with hspace hstar
    · rw [ih, List.append_assoc]
    · rw [ih, List.append_assoc, List.cons_append]
    · exact ih _

theorem words_append_space (a b : Text) : words (a ++ space :: b) = words a ++ words b :=
  wordsFrom_append_space [] a b

theorem wordsFrom_append_star (word a : Text) :
    wordsFrom word (a ++ [star]) = wordsFrom word a ++ [[star]] := by
  induction a generalizing word with
  | nil =>
    have hne : star ≠ space := by decide
    simp [wordsFrom, hne, flush]
  | cons c a ih =>
    rw [List.cons_append]
    unfold wordsFrom
    split_ifs with hspace hstar
    · rw [ih, List.append_assoc]
    · rw [ih, List.append_assoc, List.cons_append]
    · exact ih _

theorem words_append_star (a : Text) : words (a ++ [star]) = words a ++ [[star]] :=
  wordsFrom_append_star [] a

theorem wordsFrom_of_solid (word : Text) {w : Text} (h : Solid w) :
    wordsFrom word w = flush (word ++ w) := by
  induction w generalizing word with
  | nil => rw [wordsFrom, List.append_nil]
  | cons c w ih =>
    obtain ⟨hc, hw⟩ := List.forall_mem_cons.1 h
    rw [wordsFrom, if_neg hc.1, if_neg hc.2, ih _ hw, List.append_assoc, List.singleton_append]

/-- A word alone is one word. -/
theorem words_of_solid {w : Text} (hne : w ≠ []) (h : Solid w) : words w = [w] := by
  rw [words, wordsFrom_of_solid [] h, List.nil_append, flush, if_neg hne]

theorem mem_flush {word w : Text} : w ∈ flush word ↔ w = word ∧ word ≠ [] := by
  unfold flush
  split_ifs with h
  · simp [h]
  · simp [h]

/-- Words are not empty, and hold neither spaces nor stars but the star itself. -/
theorem of_mem_wordsFrom {word text w : Text} (hword : Solid word) (h : w ∈ wordsFrom word text) :
    w = [star] ∨ w ≠ [] ∧ Solid w := by
  -- the word collected so far stays solid
  induction text generalizing word with
  | nil =>
    obtain ⟨rfl, hne⟩ := mem_flush.1 h
    exact .inr ⟨hne, hword⟩
  | cons c text ih =>
    have hnil : Solid [] := fun _ hc => absurd hc List.not_mem_nil
    unfold wordsFrom at h
    split_ifs at h with hspace hstar
    · rcases List.mem_append.1 h with hw | hw
      · obtain ⟨rfl, hne⟩ := mem_flush.1 hw
        exact .inr ⟨hne, hword⟩
      · exact ih hnil hw
    · rcases List.mem_append.1 h with hw | hw
      · obtain ⟨rfl, hne⟩ := mem_flush.1 hw
        exact .inr ⟨hne, hword⟩
      · rcases List.mem_cons.1 hw with hw | hw
        · exact .inl hw
        · exact ih hnil hw
    · refine ih ?_ h
      intro d hd
      rcases List.mem_append.1 hd with hd | hd
      · exact hword d hd
      · obtain rfl := List.mem_singleton.1 hd
        exact ⟨hspace, hstar⟩

/-! ### Types -/

inductive CType where
  | base (isConst : Bool) (name : Text)
  | pointer (isConst : Bool) (target : CType)
  deriving DecidableEq

namespace CType

/-- The qualifier on the type itself. -/
def qualify : CType → CType
  | base _ name => base true name
  | pointer _ target => pointer true target

/-- The qualifier on the type that the name stands for, behind all pointers. -/
def qualifyBase : CType → CType
  | base _ name => base true name
  | pointer c target => pointer c target.qualifyBase

def isConst : CType → Bool
  | base c _ => c
  | pointer c _ => c

def baseName : CType → Text
  | base _ name => name
  | pointer _ target => target.baseName

theorem qualifyBase_qualify (t : CType) : t.qualify.qualifyBase = t.qualifyBase.qualify := by
  cases t <;> rfl

@[simp] theorem baseName_qualify (t : CType) : t.qualify.baseName = t.baseName := by
  cases t <;> rfl

end CType

/-- The words behind the type name. -/
def declarator (t : CType) : List Text → Option CType
  | [] => some t
  | w :: ws =>
    if w = [star] then declarator (.pointer false t) ws
    else if w = constWord then declarator t.qualify ws
    else none

/-- The words from the qualifiers before the type name on. `isConst` says whether there was one. -/
def specifier (isConst : Bool) : List Text → Option CType
  | [] => none
  | w :: ws =>
    if w = constWord then specifier true ws
    else if w = [star] then none
    else declarator (.base isConst w) ws

/-- The type that a text denotes. -/
def read (text : Text) : Option CType :=
  specifier false (words text)

/-- A name that reads as a type name. -/
def IsName (name : Text) : Prop :=
  name ≠ [] ∧ Solid name ∧ name ≠ constWord

instance : DecidablePred IsName := fun name =>
  inferInstanceAs (Decidable (name ≠ [] ∧ Solid name ∧ name ≠ constWord))

theorem declarator_append (t : CType) (xs ys : List Text) :
    declarator t (xs ++ ys) = (declarator t xs).bind fun u => declarator u ys := by
  induction xs generalizing t with
  | nil => rfl
  | cons w xs ih =>
    rw [List.cons_append, declarator, declarator]
    split_ifs with hstar hconst
    · exact ih _
    · exact ih _
    · rfl

theorem specifier_append {isConst : Bool} {xs : List Text} {t : CType}
    (h : specifier isConst xs = some t) (ys : List Text) :
    specifier isConst (xs ++ ys) = declarator t ys := by
  induction xs generalizing isConst with
  | nil => cases h
  | cons w xs ih =>
    rw [List.cons_append]
    unfold specifier at h ⊢
    split_ifs at h ⊢ with hconst hstar
    · exact ih h
    · rw [declarator_append, h, Option.bind_some]

theorem declarator_qualifyBase (t : CType) (ws : List Text) :
    declarator t.qualifyBase ws = (declarator t ws).map CType.qualifyBase := by
  induction ws generalizing t with
  | nil => rfl
  | cons w ws ih =>
    unfold declarator
    split_ifs with hstar hconst
    · exact ih (.pointer false t)
    · rw [← ih, CType.qualifyBase_qualify]
    · rfl

theorem specifier_true {ws : List Text} {t : CType} (h : specifier false ws = some t) :
    specifier true ws = some t.qualifyBase := by
  cases ws with
  | nil => cases h
  | cons w ws =>
    unfold specifier at h ⊢
    split_ifs at h ⊢ with hconst hstar
    · -- a second `const` changes nothing
      rw [h]
      suffices hall : ∀ ws t, specifier true ws = some t → t.qualifyBase = t by rw [hall _ _ h]
      intro ws
      induction ws with
      | nil => intro t ht; cases ht
      | cons v ws ih =>
        intro t ht
        unfold specifier at ht
        split_ifs at ht with hv hv'
        · exact ih t ht
        · have hbase := declarator_qualifyBase (.base true v) ws
          rw [CType.qualifyBase, ht, Option.map_some] at hbase
          exact (Option.some.inj hbase).symm
    · exact (declarator_qualifyBase (.base false w) ws).trans (by rw [h]; rfl)

/-! ### Reading what is put together -/

theorem read_of_isName {name : Text} (h : IsName name) : read name = some (.base false name) := by
  have hstar : name ≠ [star] := by
    rintro rfl
    exact (h.2.1 star (List.mem_singleton_self _)).2 rfl
  rw [read, words_of_solid h.1 h.2.1, specifier, if_neg h.2.2, if_neg hstar, declarator]

/-- `const T` -/
theorem read_const {text : Text} {t : CType} (h : read text = some t) :
    read (constWord ++ space :: text) = some t.qualifyBase := by
  have hsolid : Solid constWord := by decide
  have hne : constWord ≠ [] := nofun
  rw [read, words_append_space, words_of_solid hne hsolid, List.singleton_append, specifier,
    if_pos rfl]
  exact specifier_true h

/-- `T *` -/
theorem read_space_star {text : Text} {t : CType} (h : read text = some t) :
    read (text ++ [space, star]) = some (.pointer false t) := by
  have hwords : words [star] = [[star]] := words_append_star []
  rw [read, words_append_space, hwords, specifier_append h, declarator, if_pos rfl, declarator]

theorem baseName_of_declarator {t u : CType} {ws : List Text} (h : declarator t ws = some u) :
    u.baseName = t.baseName := by
  induction ws generalizing t with
  | nil => rw [Option.some.inj h]
  | cons w ws ih =>
    unfold declarator at h
    split_ifs at h with hstar hconst
    · rw [ih h, CType.baseName]
    · rw [ih h, CType.baseName_qualify]

/-- What can be read has a type name. -/
theorem isName_baseName {text : Text} {t : CType} (h : read text = some t) : IsName t.baseName := by
  have hnil : Solid [] := fun _ hc => absurd hc List.not_mem_nil
  have hall : ∀ w ∈ words text, w = [star] ∨ w ≠ [] ∧ Solid w :=
    fun w hw => of_mem_wordsFrom hnil hw
  unfold read at h
  generalize words text = ws at h hall
  generalize false = isConst at h
  induction ws generalizing isConst with
  | nil => cases h
  | cons w ws ih =>
    obtain ⟨hw, hws⟩ := List.forall_mem_cons.1 hall
    unfold specifier at h
    split_ifs at h with hconst hstar
    · exact ih hws _ h
    · rw [baseName_of_declarator h]
      obtain ⟨hne, hsolid⟩ := hw.resolve_left hstar
      exact ⟨hne, hsolid, hconst⟩

end CDeclaration
