import Sidlc.Sif.Equiv.RoundTrip

/-!
# Encoding undoes decoding, up to flags

The only freedom of a SIF file is the `is_const` byte of a type: `read_type` takes any non-zero byte
for `true`, and `write_type` puts down `1`. An accepted file is written back byte for byte exactly
when its flags are `0` and `1`.
-/

namespace Sidlc

open CellFormat StateExcept

theorem allRevisions_nil (interface : InterfaceNode) :
    allRevisions interface [] = interface.abiversions :=
  List.append_nil _

namespace InterfaceNode.Decoded

variable {interface : InterfaceNode}

/-- A decoded interface can be written again. -/
theorem writable (h : interface.Decoded) : Writable interface [] where
  hasUuid := h.hasUuid
  hasPrefix := h.hasPrefix
  identity := h.identity
  nonempty := by rw [allRevisions_nil]; exact h.nonempty
  countable := by rw [allRevisions_nil]; exact h.countable
  encodable := by rw [allRevisions_nil]; exact h.encodable

/-- A decoded interface is what its own artifact decodes to. -/
theorem merged_nil (h : interface.Decoded) : interface.merged [] = interface := by
  simp only [merged, allRevisions_nil, h.stamped, ← h.currentFuncid]

/-- A decoded interface is written in its canonical bytes. -/
theorem sifWrite_nil (h : interface.Decoded) :
    sifWrite interface [] = .ok (encode interface.layout) := by
  rw [sifWrite_eq_ok_iff, h.merged_nil]
  exact ⟨h.writable, rfl⟩

end InterfaceNode.Decoded

/-- Every byte that the format reads as the `is_const` flag of a type is `0` or `1`. -/
def ConstFlagsStrict (bs : Bytes) : Prop :=
  ∀ interface : InterfaceNode, interface.Decoded → Matches interface.layout bs →
    ∀ (i : Nat) (c : Bool) (x : UInt8), interface.layout[i]? = some (.flag c) → bs[i]? = some x →
      x ≤ 1

/-- **An accepted file is canonical exactly when its `is_const` bytes are**, and files of that kind
are told apart by what they decode to. -/
theorem sifWrite_sifRead_iff (bs : Bytes) (interface : InterfaceNode)
    (h : sifRead bs = .ok interface) :
    (sifWrite interface [] = .ok bs ↔ ConstFlagsStrict bs) ∧
      ∀ bs', sifRead bs' = .ok interface →
        ConstFlagsStrict bs → ConstFlagsStrict bs' → bs = bs' := by
  have hiff (bs : Bytes) (h : sifRead bs = .ok interface) :
      bs = encode interface.layout ↔ ConstFlagsStrict bs := by
    obtain ⟨hd, hm⟩ := (sifRead_eq_ok_iff ..).1 h
    rw [hm.eq_encode_iff, hm.strict_iff]
    constructor
    · intro hs other ho hmo
      -- the format determines the interface, so `other` is the one that was read
      have hother := (sifRead_eq_ok_iff bs other).2 ⟨ho, hmo⟩
      obtain rfl : interface = other := by rw [h] at hother; exact Except.ok.inj hother
      exact hs
    · exact fun hs => hs interface hd hm
  obtain ⟨hd, -⟩ := (sifRead_eq_ok_iff ..).1 h
  refine ⟨?_, fun bs' h' hs hs' => ((hiff bs h).2 hs).trans ((hiff bs' h').2 hs').symm⟩
  rw [hd.sifWrite_nil, Except.ok.injEq, eq_comm, hiff bs h]

/-! ### Shorter and longer files -/

/-- A file that was accepted is followed by nothing in another one. -/
theorem eq_nil_of_sifRead_append {bs more : Bytes} {interface other : InterfaceNode}
    (h : sifRead bs = .ok interface) (hmore : sifRead (bs ++ more) = .ok other) : more = [] := by
  have hread : readInterface bs = .ok (interface, []) := by
    obtain ⟨hd, hm⟩ := (sifRead_eq_ok_iff ..).1 h
    exact (reads_interface ..).2 ⟨hd, bs, (List.append_nil bs).symm, hm⟩
  have hextended := reads_interface.extend hread more
  rw [List.nil_append] at hextended
  rw [sifRead, hextended] at hmore
  cases more with
  | nil => rfl
  | cons byte more => cases hmore

/-- **No accepted file is a proper prefix of another one.** -/
theorem sifRead_prefixFree (bs : Bytes) (interface : InterfaceNode)
    (h : sifRead bs = .ok interface) :
    (∀ shorter, shorter <+: bs → shorter ≠ bs → ∃ e, sifRead shorter = .error e) ∧
      ∀ longer, bs <+: longer → longer ≠ bs → ∃ e, sifRead longer = .error e := by
  constructor
  · rintro shorter ⟨more, rfl⟩ hne
    cases hread : sifRead shorter with
    | error e => exact ⟨e, rfl⟩
    | ok other =>
      obtain rfl := eq_nil_of_sifRead_append hread h
      exact absurd (List.append_nil shorter).symm hne
  · rintro longer ⟨more, rfl⟩ hne
    cases hread : sifRead (bs ++ more) with
    | error e => exact ⟨e, rfl⟩
    | ok other =>
      obtain rfl := eq_nil_of_sifRead_append h hread
      exact absurd (List.append_nil bs) hne

/-! ### Files of one revision -/

/-- What the artifact of the sample interface with one revision decodes to. -/
def sampleRead (revision : AbiversionNode) : InterfaceNode :=
  (sampleInterface [revision]).merged []

theorem sifRead_sampleRead {revision : AbiversionNode} (hversion : revision.version = 0)
    (h : revision.Encodable) :
    sifRead (encode (sampleRead revision).layout) = .ok (sampleRead revision) := by
  have hidentity : (sampleInterface []).IdentityEncodable := by decide
  have hw : Writable (sampleInterface [revision]) [] :=
    ⟨rfl, rfl, hidentity, List.cons_ne_nil _ _, Nat.one_lt_two_pow (by decide),
      List.forall_mem_singleton.2 h⟩
  refine (sifRead_eq_ok_iff ..).2 ⟨hw.decoded_merged ⟨?_, trivial⟩, matches_encode _⟩
  rw [hversion]
  rfl

theorem abiversions_sampleRead (revision : AbiversionNode) :
    ∃ abiHash, (sampleRead revision).abiversions = [revision.stamp zeroHash abiHash] :=
  ⟨_, rfl⟩

theorem functionsOf_sampleRead (revision : AbiversionNode) :
    functionsOf (sampleRead revision).abiversions = revision.functions.map FunctionNode.bare := by
  obtain ⟨abiHash, hrev⟩ := abiversions_sampleRead revision
  rw [hrev, functionsOf, List.flatMap_singleton]
  rfl

/-! ### A file that is not canonical -/

/-- The interface that the artifact of the sample decodes to. -/
def sampleDecoded : InterfaceNode :=
  (sampleInterface [sampleRevision 0 0]).merged []

theorem decoded_sampleDecoded : sampleDecoded.Decoded := by
  refine Writable.decoded_merged ⟨rfl, rfl, by decide, by decide, by decide, by decide⟩ ?_
  exact ⟨rfl, trivial⟩

/-- The artifact of the sample, with its flag set by a `2`. -/
def sampleTampered : Bytes :=
  sampleDecoded.layout.map fun cell =>
    match cell with
    | .byte b => b
    | .flag c => if c then 2 else 0

theorem sifRead_sampleTampered : sifRead sampleTampered = .ok sampleDecoded := by
  refine (sifRead_eq_ok_iff ..).2 ⟨decoded_sampleDecoded, ?_⟩
  rw [sampleTampered, Matches, List.forall₂_map_right_iff, List.forall₂_same]
  rintro (b | c) -
  · rfl
  · cases c <;> rfl

theorem sifRead_prefixFree_sample :
    (∀ shorter, shorter <+: sampleTampered → shorter ≠ sampleTampered →
        ∃ e, sifRead shorter = .error e) ∧
      ∀ longer, sampleTampered <+: longer → longer ≠ sampleTampered →
        ∃ e, sifRead longer = .error e :=
  sifRead_prefixFree sampleTampered sampleDecoded sifRead_sampleTampered

theorem abiversions_sampleDecoded :
    ∃ abiHash, sampleDecoded.abiversions = [(sampleRevision 0 0).stamp zeroHash abiHash] :=
  ⟨_, rfl⟩

/-- The type of the parameter has its flag set. -/
theorem flag_mem_sampleDecoded : Cell.flag true ∈ sampleDecoded.layout := by
  have hmem : Cell.flag true ∈ (sampleRevision 0 0).membersLayout := by decide
  obtain ⟨abiHash, hrev⟩ := abiversions_sampleDecoded
  have htrees : Cell.flag true ∈ InterfaceNode.treesLayout sampleDecoded.abiversions := by
    rw [hrev, InterfaceNode.treesLayout, List.flatMap_singleton, AbiversionNode.layout]
    rw [← AbiversionNode.membersLayout_bare] at hmem
    exact List.mem_append_right _ (List.mem_append_right _ hmem)
  simp only [InterfaceNode.layout, List.mem_append, htrees, or_true]

theorem sampleTampered_ne : sampleTampered ≠ encode sampleDecoded.layout := by
  intro h
  have hcell := List.map_inj_left.1 h _ flag_mem_sampleDecoded
  exact absurd hcell (by decide)

/-- The tampered file is accepted, but another file is written back, which decodes alike. -/
theorem sifWrite_sampleTampered :
    ∃ interface bs, sifRead sampleTampered = .ok interface ∧ sifWrite interface [] = .ok bs ∧
      bs ≠ sampleTampered ∧ sifRead bs = .ok interface :=
  ⟨sampleDecoded, _, sifRead_sampleTampered, decoded_sampleDecoded.sifWrite_nil,
    sampleTampered_ne.symm,
    (sifRead_eq_ok_iff ..).2 ⟨decoded_sampleDecoded, matches_encode _⟩⟩

/-- The artifact of the sample has strict flags. -/
theorem constFlagsStrict_sample : ConstFlagsStrict (encode sampleDecoded.layout) :=
  (sifWrite_sifRead_iff _ sampleDecoded
    ((sifRead_eq_ok_iff ..).2 ⟨decoded_sampleDecoded, matches_encode _⟩)).1.1
    decoded_sampleDecoded.sifWrite_nil

end Sidlc
