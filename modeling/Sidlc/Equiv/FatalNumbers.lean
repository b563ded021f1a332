import Sidlc.Equiv.Acceptance

/-!
# The sources on which `parse` does not return

`parse` catches `std::runtime_error` only, and `std::stoull` raises two other exceptions. They leave
`parse` exactly when a number that `std::stoull` refuses stands where, after what comes before it, a
number belongs (`parse_returns_iff`): the lexemes up to it begin an interface of which the last
revision may have any number, since that number is compared when the revision is over.
-/

namespace Sidlc

open Grammar StateExcept Sidlc.Parser

namespace Syntax

/-- An interface up to the end of a revision, of which the number does not matter. -/
def openInterface (firstAbirevision : UInt64) (firstFuncid : UInt32) :
    Lang Lexeme (AbiversionNode × InterfaceNode) := do
  let interface ← interfaceHeader firstFuncid
  let interface ← .iterate (nextRevision firstAbirevision) interface
  abirevision interface

instance (interface : InterfaceNode) : (abirevision interface).Productive := by
  unfold abirevision
  infer_instance

theorem starts_abirevision (interface : InterfaceNode) :
    (abirevision interface).Starts (·.1 = .kwdAbirevision) :=
  (starts_token _).bind _

/-- The closing brace is no number. -/
theorem not_breaks_closing (interface : InterfaceNode) (ts : List Lexeme) :
    ¬ (do token (op '\x7d'); return interface : Lang Lexeme InterfaceNode).Breaks Repairs
      ts := by
  intro h
  rcases Lang.breaks_bind h with h | ⟨_, us, _, -, -, h⟩
  · cases ts with
    | nil => exact Lang.not_breaks_nil h
    | cons t us =>
      obtain ⟨t', hrepairs, hsome⟩ := Lang.breaks_terminal_cons_iff.1 h
      obtain ⟨_, ha⟩ := Option.isSome_iff_exists.1 hsome
      have ht : t'.1 = op '\x7d' := token_singleton_iff.1 ⟨t', rfl, ha⟩
      exact absurd (hrepairs.2.1.symm.trans ht) (by decide)
  · exact Lang.not_breaks_pure interface us h

/-- No number stands between the revisions. -/
theorem breaks_openInterface_iff {firstAbirevision : UInt64} {firstFuncid : UInt32}
    {ts : List Lexeme} :
    (openInterface firstAbirevision firstFuncid).Breaks Repairs ts ↔
      (interfaceHeader firstFuncid).Breaks Repairs ts ∨
        ∃ xs us header, ts = xs ++ us ∧ interfaceHeader firstFuncid xs header ∧
          ∃ ys vs interface, us = ys ++ vs ∧
            Lang.iterate (nextRevision firstAbirevision) header ys interface ∧
            (abirevision interface).Breaks Repairs vs := by
  have hrest (header : InterfaceNode) (us : List Lexeme) :
      (Lang.iterate (nextRevision firstAbirevision) header >>= abirevision).Breaks Repairs us
        ↔ ∃ ys vs interface, us = ys ++ vs ∧
            Lang.iterate (nextRevision firstAbirevision) header ys interface ∧
            (abirevision interface).Breaks Repairs vs := by
    rw [Lang.breaks_bind_iff, Lang.breaks_iterate_iff]
    constructor
    · rintro (⟨ys, vs, interface, rfl, hys, hbreaks⟩ | h)
      · -- what breaks a revision with the next number breaks a revision
        rcases Lang.breaks_bind hbreaks with h | ⟨zs, ws, r, rfl, -, hnone⟩
        · exact ⟨ys, vs, interface, rfl, hys, h⟩
        · obtain ⟨_, _, _, _, _, _, -, -, hnil, -⟩ := hnone
          exact absurd (congrArg List.length hnil) (by simp)
      · exact h
    · exact .inr
  unfold openInterface
  rw [Lang.breaks_bind_iff]
  simp only [hrest]

end Syntax

namespace Parser

variable {firstAbirevision : UInt64} {firstFuncid : UInt32}

theorem reported_appendAbiversion {interface : InterfaceNode} {abiversion : AbiversionNode}
    {e : Exn}
    (h : appendAbiversionOrThrow firstAbirevision interface abiversion = .error e) :
    Reported e := by
  unfold appendAbiversionOrThrow at h
  dsimp only at h
  split_ifs at h
  exact ⟨_, (Except.error.inj h).symm⟩

/-- A revision with the wrong number is reported, so only the revision itself escapes. -/
theorem escapes_interfaceItem_iff (interface : InterfaceNode) {p : Parser} (hv : p.Valid) :
    Escapes Reported (parseInterfaceItem firstAbirevision interface) p ↔
      (Syntax.abirevision interface).Breaks Repairs p.ahead := by
  have hitem : parseInterfaceItem firstAbirevision interface p =
      (if p.currentToken.type = .kwdAbirevision then
        parseAbiversion interface >>= fun x =>
          fromExcept (appendAbiversionOrThrow firstAbirevision x.2 x.1)
      else unexpected p.currentToken.type : Parse InterfaceNode) p := rfl
  have habiversion := decides_abiversion interface p hv
  rw [Escapes, hitem]
  by_cases htype : p.currentToken.type = .kwdAbirevision
  · rw [if_pos htype]
    refine escapes_bind_iff.trans ((or_iff_left ?_).trans habiversion.escapes_iff)
    -- a revision with the wrong number is reported
    rintro ⟨x, p', -, e, he, hescapes⟩
    exact hescapes (reported_appendAbiversion (fromExcept_eq_error.1 he))
  · rw [if_neg htype]
    refine iff_of_false ?_ fun h => ?_
    · rintro ⟨e, he, hescapes⟩
      exact hescapes ⟨_, (Except.error.inj he).symm⟩
    · cases hs : p.ahead with
      | nil => exact Lang.not_breaks_nil (hs ▸ h)
      | cons t us =>
        rw [hs] at h
        have ht : t.1 = .kwdAbirevision :=
          h.starts (Syntax.starts_abirevision interface) fun _ _ h => h.type_iff (· = _)
        exact htype ((type_eq_of_ahead hs).trans ht)

/-- Where `parseInterface` fails in another way than `parse` reports. -/
theorem escapes_interface_iff {p : Parser} (hv : p.Valid) :
    Escapes Reported (parseInterface firstAbirevision firstFuncid) p ↔
      (Syntax.openInterface firstAbirevision firstFuncid).Breaks Repairs p.ahead := by
  have hheader := decides_interfaceHeader firstFuncid p hv
  have hclose (interface : InterfaceNode) : Decides (do
      consume (op '\x7d')
      return interface) (do
      Syntax.token (op '\x7d')
      return interface) := (decides_consume (by decide)).bind fun _ => .pure _
  -- after the header, the loop over the revisions
  have hrest (header : InterfaceNode) (p : Parser) (hv : p.Valid) :
      Escapes Reported (do
        let interface ← whileType (· ≠ op '\x7d') (parseInterfaceItem firstAbirevision) header
        consume (op '\x7d')
        return interface) p ↔
      ∃ ys vs interface, p.ahead = ys ++ vs ∧
        Lang.iterate (Syntax.nextRevision firstAbirevision) header ys interface ∧
        (Syntax.abirevision interface).Breaks Repairs vs := by
    refine (Grammar.Decides.escapes_loop_iff (T := Syntax.abirevision)
      (fun p t us (h : p.ahead = t :: us) => by rw [type_eq_of_ahead h])
      (fun _ _ h => h.type_iff (· ≠ op '\x7d')) (parses_interfaceItem firstAbirevision)
      (fun interface => ?_) (fun interface => ?_) (fun interface p hv =>
        escapes_interfaceItem_iff interface hv) hclose (fun interface => ?_)
      (fun p _ => p.length_ahead_lt_rounds) .diverges header hv).trans ?_
    · exact Syntax.starts_ne (Syntax.starts_nextRevision _ _) (by decide)
    · exact Syntax.starts_ne (Syntax.starts_abirevision _) (by decide)
    · exact ((Syntax.starts_token _).bind _).mono fun t ht => not_not.2 ht
    · constructor
      · rintro ⟨ys, vs, interface, hs, hys, h | h⟩
        · exact ⟨ys, vs, interface, hs, hys, h⟩
        · exact absurd h (Syntax.not_breaks_closing interface vs)
      · rintro ⟨ys, vs, interface, hs, hys, h⟩
        exact ⟨ys, vs, interface, hs, hys, .inl h⟩
  rw [Syntax.breaks_openInterface_iff]
  refine escapes_bind_iff.trans (or_congr hheader.escapes_iff ?_)
  constructor
  · rintro ⟨header, p', hp', hescapes⟩
    obtain ⟨xs, hxs, hs, -, hv'⟩ := hheader.of_ok hv hp'
    exact ⟨xs, p'.ahead, header, hs, hxs, (hrest header p' hv').1 hescapes⟩
  · rintro ⟨xs, us, header, hs, hxs, hbreaks⟩
    have hahead : stream.ahead p = xs ++ us := hs
    refine ⟨header, _, hheader.ok hahead hxs, (hrest header _ (stream.valid_after _ hv)).2 ?_⟩
    have hus : (stream.after xs.length p).ahead = us := stream.ahead_after_of_prefix hv hahead
    rwa [hus]

end Parser

/-- **`parse` returns exactly** when no number that `std::stoull` refuses stands where a number
belongs. -/
theorem parse_returns_iff (source : Bytes) (firstAbirevision : UInt64) (firstFuncid : UInt32) :
    (∃ result, Parser.parse source firstAbirevision firstFuncid = .ok result) ↔
      ¬ (Syntax.openInterface firstAbirevision firstFuncid).Breaks Repairs
        (lexemes source) := by
  have hescapes : Escapes Reported (Parser.parseInterface firstAbirevision firstFuncid)
      (Parser.start source) ↔ _ := Parser.escapes_interface_iff (Parser.valid_start source)
  rw [Parser.ahead_start] at hescapes
  rw [← hescapes, Parser.parse_eq]
  cases h : Parser.parseInterface firstAbirevision firstFuncid (Parser.start source) with
  | ok r => exact iff_of_true ⟨_, rfl⟩ (not_escapes_of_ok h)
  | error e =>
    rw [escapes_iff_of_error h, not_not]
    cases e with
    | runtimeError what => exact iff_of_true ⟨_, rfl⟩ ⟨what, rfl⟩
    | _ => exact iff_of_false (by simp) (by rintro ⟨_, ⟨⟩⟩)

/-- A revision with the number two to the power of sixty-four. -/
def fatalSource : Bytes :=
  ascii "interface a \x7b abirevision 18446744073709551616 \x7b \x7d \x7d"

/-- A large revision number leaves `parse` as `std::out_of_range`. -/
theorem not_parse_returns_fatalSource : ¬ ∀ source firstAbirevision firstFuncid,
    ∃ result, Parser.parse source firstAbirevision firstFuncid = .ok result := by
  intro h
  obtain ⟨result, hresult⟩ := h fatalSource 0 0
  have herror : (Parser.parse fatalSource 0 0).isOk = false := by decide +kernel
  rw [hresult] at herror
  exact absurd herror (by simp [Except.isOk, Except.toBool])

end Sidlc
