import Sidlc.Sif.Equiv.Alignment

/-!
# What `sif_write` leaves on its stream

When the interface can be written, the stream holds the artifact. Otherwise it holds nothing, unless
all revisions are encodable: then the hashes are computed, and the stream holds the magic, the
version and the identity up to the first string or count that does not fit
(`sifWriteTo_of_not_writable`).
-/

namespace Sidlc

open CellFormat BinaryWriter StateExcept

namespace WriterCall

/-- The length or the count has 32 bits. -/
def Fits : WriterCall → Prop
  | .string value => Countable value
  | .count size => size < 2 ^ 32
  | .throws _ => False
  | _ => True

instance : DecidablePred Fits
  | .string value => inferInstanceAs (Decidable (Countable value))
  | .count size => inferInstanceAs (Decidable (size < 2 ^ 32))
  | .throws _ => isFalse id
  | .u8 _ | .u32 _ | .u64 _ | .bytes _ => isTrue trivial

theorem run_of_fits {c : WriterCall} (h : c.Fits) : c.run = .ok c.output := by
  cases c with
  | string value =>
    have hlength : ¬ value.length > 4294967295 := by
      have hcount : value.length < 2 ^ 32 := h
      omega
    simp only [output, run, BinaryWriter.string, hlength, if_false]
    rfl
  | count size =>
    have hsize : ¬ size > 4294967295 := by
      have hcount : size < 2 ^ 32 := h
      omega
    simp only [output, run, hsize, if_false]
    rfl
  | throws what => exact absurd h id
  | u8 value => rfl
  | u32 value => rfl
  | u64 value => rfl
  | bytes data => rfl

/-- All exceptions are runtime errors. -/
theorem run_of_not_fits {c : WriterCall} (h : ¬ c.Fits) :
    ∃ what, c.run = .error (.runtimeError what) := by
  cases c with
  | string value =>
    have hlength : value.length > 4294967295 := by
      have hcount : ¬ value.length < 2 ^ 32 := h
      omega
    exact ⟨_, if_pos hlength⟩
  | count size =>
    have hsize : size > 4294967295 := by
      have hcount : ¬ size < 2 ^ 32 := h
      omega
    exact ⟨_, if_pos hsize⟩
  | throws what => exact ⟨what, rfl⟩
  | u8 value => exact absurd trivial h
  | u32 value => exact absurd trivial h
  | u64 value => exact absurd trivial h
  | bytes data => exact absurd trivial h

theorem writes_run (c : WriterCall) : Writes c.run (literal c.output) c.Fits := by
  intro bs
  by_cases hfits : c.Fits
  · simp [run_of_fits hfits, hfits, eq_comm]
  · obtain ⟨what, hwhat⟩ := run_of_not_fits hfits
    simp [hwhat, hfits]

end WriterCall

/-! ### Exceptions -/

theorem writeEach_run_error {calls : List WriterCall} {e : Exn}
    (h : writeEach WriterCall.run calls = .error e) : ∃ what, e = .runtimeError what := by
  induction calls with
  | nil => exact absurd h (by simp [writeEach])
  | cons c calls ih =>
    rw [writeEach, append_eq_error] at h
    rcases h with hc | ⟨bs, -, hcalls⟩
    · by_cases hfits : c.Fits
      · exact absurd (hc.symm.trans (WriterCall.run_of_fits hfits)) (by simp)
      · obtain ⟨what, hwhat⟩ := WriterCall.run_of_not_fits hfits
        exact ⟨what, Except.error.inj (hc.symm.trans hwhat)⟩
    · exact ih hcalls

theorem traced_error {w : Writer} {calls : List WriterCall} {marks : List Mark} {e : Exn}
    (htraced : Traced w calls marks) (h : w = .error e) : ∃ what, e = .runtimeError what :=
  writeEach_run_error (htraced.run.trans h)

theorem computeRevisionHash_error {interface : InterfaceNode} {node : AbiversionNode}
    {previousHash : Hash} {e : Exn}
    (h : computeRevisionHash interface node previousHash = .error e) :
    ∃ what, e = .runtimeError what := by
  rw [computeRevisionHash] at h
  rcases except_bind_eq_error.1 h with huuid | ⟨uuid, -, h⟩
  · rw [computeInterfaceUuid] at huuid
    cases hhas : interface.hasUuid with
    | true => simp [hhas] at huuid
    | false =>
      rw [hhas] at huuid
      exact ⟨_, (Except.error.inj huuid).symm⟩
  rcases except_bind_eq_error.1 h with htree | ⟨tree, -, h⟩
  · exact traced_error (traced_revisionTree node previousHash) htree
  rcases except_bind_eq_error.1 h with hdomain | ⟨domain, -, h⟩
  · exact traced_error (Traced.lastText (ascii "strata.sif.revision.v0")) hdomain
  · exact absurd h (by simp [pure, Except.pure])

theorem revisionHashes_error {interface : InterfaceNode} {previousHash : Hash}
    {nodes : List AbiversionNode} {e : Exn}
    (h : revisionHashes interface previousHash nodes = .error e) :
    ∃ what, e = .runtimeError what := by
  induction nodes generalizing previousHash with
  | nil => exact absurd h (by simp [revisionHashes, pure, Except.pure])
  | cons node nodes ih =>
    rw [revisionHashes, except_bind_eq_error] at h
    rcases h with hhash | ⟨hash, -, h⟩
    · exact computeRevisionHash_error hhash
    · rcases except_bind_eq_error.1 h with hrest | ⟨rest, -, h⟩
      · exact ih hrest
      · exact absurd h (by simp [pure, Except.pure])

/-! ### What is left -/

/-- The beginning of an artifact up to the first part of the identity that does not fit; nothing,
when there is nothing to write or a revision does not fit. -/
def brokenOff (interface : InterfaceNode) (extensions : List InterfaceNode) : Bytes :=
  if allRevisions interface extensions ≠ [] ∧
      ∀ node ∈ allRevisions interface extensions, node.Encodable then
    kSifMagic ++ (wordBytes 4 kSifFormatVersion.toBitVec ++
      (interface.identityCalls.takeWhile WriterCall.Fits).flatMap WriterCall.output)
  else []

theorem sifWriteTo_of_sifWrite {interface : InterfaceNode} {extensions : List InterfaceNode}
    {artifact : Bytes} (h : sifWrite interface extensions = .ok artifact) :
    sifWriteTo interface extensions = (artifact, .ok ()) := by
  obtain ⟨calls, hcalls, htraced⟩ := exists_sifCalls h
  rw [sifWriteTo, hcalls]
  exact streamEach_of_ok htraced.run

/-- Whether the identity is encodable shows in its calls. -/
theorem identityCalls_fit_iff {interface : InterfaceNode} (huuid : interface.hasUuid = true)
    (hpre : interface.hasPrefix = true) :
    (∀ c ∈ interface.identityCalls, c.Fits) ↔ interface.IdentityEncodable := by
  have hcalls := Writes.each WriterCall.writes_run interface.identityCalls
  rw [(traced_identity huuid hpre).run] at hcalls
  rw [hcalls.fits_iff (writes_interfaceIdentity interface)]
  simp [huuid, hpre]

theorem takeWhile_append_cons {α : Type} {p : α → Prop} [DecidablePred p] {xs : List α} {y : α}
    (h : (∀ x ∈ xs, p x) → ¬ p y) (ys : List α) :
    (xs ++ y :: ys).takeWhile p = xs.takeWhile p := by
  induction xs with
  | nil => exact List.takeWhile_cons_of_neg (by simpa using h (List.forall_mem_nil _))
  | cons x xs ih =>
    rw [List.cons_append, List.takeWhile_cons, List.takeWhile_cons]
    by_cases hx : p x
    · rw [ih fun hxs => h (List.forall_mem_cons.2 ⟨hx, hxs⟩)]
    · simp [hx]

/-- Behind revisions that fit, it is the identity or the number of the revisions that does not. -/
theorem streamEach_artifactCalls {interface : InterfaceNode} {revisions : List AbiversionNode}
    {hashes : List Hash}
    (h : (∀ c ∈ interface.identityCalls, c.Fits) → ¬ Countable hashes) :
    ∃ what, streamEach WriterCall.run (artifactCalls interface revisions hashes)
      = (kSifMagic ++ (wordBytes 4 kSifFormatVersion.toBitVec ++
          (interface.identityCalls.takeWhile WriterCall.Fits).flatMap WriterCall.output),
        .error (.runtimeError what)) := by
  let calls := artifactCalls interface revisions hashes
  have hfst : (streamEach WriterCall.run calls).1
      = (calls.takeWhile WriterCall.Fits).flatMap WriterCall.output :=
    streamEach_fst (fun _ => WriterCall.run_of_fits)
      (fun _ hc => (WriterCall.run_of_not_fits hc).imp' Exn.runtimeError fun _ => id) calls
  -- The stream ends with the identity: what does not fit is there, or the count that follows it.
  have htake : calls.takeWhile WriterCall.Fits = .bytes kSifMagic :: .u32 kSifFormatVersion ::
      interface.identityCalls.takeWhile WriterCall.Fits := by
    have htail := takeWhile_append_cons (p := WriterCall.Fits) (y := .count hashes.length) h
      (.bytes (hashes.headD zeroHash).toList :: hashes.map (fun hash => .bytes hash.toList) ++
        revisionTreesCalls zeroHash (revisions.zip hashes))
    show List.takeWhile _ (_ :: _ :: _) = _
    rw [List.takeWhile_cons_of_pos (by decide), List.takeWhile_cons_of_pos (by decide)]
    exact congrArg _ (congrArg _ htail)
  have hfail : ¬ ∀ c ∈ calls, c.Fits := by
    intro hfits
    have hmem (c : WriterCall) (hc : c ∈ interface.identityCalls) : c ∈ calls :=
      List.mem_cons_of_mem _ (List.mem_cons_of_mem _ (List.mem_append_left _ hc))
    have hcount : WriterCall.count hashes.length ∈ calls :=
      List.mem_cons_of_mem _ (List.mem_cons_of_mem _ (List.mem_append_right _ List.mem_cons_self))
    exact h (fun c hc => hfits c (hmem c hc)) (hfits _ hcount)
  cases hwrite : writeEach WriterCall.run calls with
  | ok bs =>
    exact absurd ((Writes.each WriterCall.writes_run calls bs).1 hwrite).1 hfail
  | error e =>
    obtain ⟨what, rfl⟩ := writeEach_run_error hwrite
    obtain ⟨bs, hstream⟩ := streamEach_of_error hwrite
    rw [hstream, htake] at hfst
    exact ⟨what, hstream.trans (congrArg (·, _) hfst)⟩

/-- **A failed `sif_write` leaves the part that fits.** -/
theorem sifWriteTo_of_not_writable {interface : InterfaceNode} {extensions : List InterfaceNode}
    (huuid : interface.hasUuid = true) (hpre : interface.hasPrefix = true)
    (h : ¬ Writable interface extensions) :
    ∃ what, sifWriteTo interface extensions
      = (brokenOff interface extensions, .error (.runtimeError what)) := by
  by_cases hne : allRevisions interface extensions = []
  · have hempty : (allRevisions interface extensions).isEmpty = true := by simp [hne]
    have hbroken : brokenOff interface extensions = [] := if_neg fun hnode => hnode.1 hne
    refine ⟨"SIF artifact requires at least one ABI revision", ?_⟩
    rw [hbroken, sifWriteTo, sifCalls]
    simp only [hempty, if_true]
  have hempty : (allRevisions interface extensions).isEmpty = false := by simpa using hne
  by_cases hencodable : ∀ node ∈ allRevisions interface extensions, node.Encodable
  · have hbroken : brokenOff interface extensions = _ := if_pos ⟨hne, hencodable⟩
    have hhashes := (revisionHashes_eq_ok_iff interface huuid zeroHash _ _).2 ⟨hencodable, rfl⟩
    rw [hbroken, sifWriteTo, sifCalls]
    simp only [hempty, Bool.false_eq_true, if_false, hhashes]
    apply streamEach_artifactCalls
    intro hidentity hcount
    refine h ⟨huuid, hpre, (identityCalls_fit_iff huuid hpre).1 hidentity, hne, ?_, hencodable⟩
    simpa [Countable] using hcount
  · have hbroken : brokenOff interface extensions = [] := if_neg fun hnode => hencodable hnode.2
    cases hhashes : revisionHashes interface zeroHash (allRevisions interface extensions) with
    | ok hashes =>
      exact absurd ((revisionHashes_eq_ok_iff interface huuid ..).1 hhashes).1 hencodable
    | error e =>
      obtain ⟨what, rfl⟩ := revisionHashes_error hhashes
      refine ⟨what, ?_⟩
      rw [hbroken, sifWriteTo, sifCalls]
      simp only [hempty, Bool.false_eq_true, if_false, hhashes]
      rfl

end Sidlc
