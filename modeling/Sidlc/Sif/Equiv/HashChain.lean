import Mathlib.Data.List.Induction
import Sidlc.Sif.Equiv.RoundTrip

/-!
# The hash chain binds the history

The message hashed for a revision determines the UUID, the previous hash and every encoded field of
the revision, since the tree that follows the domain string and the UUID can be read. So, as long as
SHA-256 does not collide on the messages of two chains, equal last hashes make the chains equal,
from the last revision back to the first.
-/

namespace Sidlc

open CellFormat LittleEndian

/-! ### Revision trees are uniquely decodable -/

namespace AbiversionNode

/-- The members of a revision can be told from their bytes. -/
theorem encode_membersLayout_injective {x y : AbiversionNode} (hx : x.Encodable)
    (hy : y.Encodable) (h : encode x.membersLayout = encode y.membersLayout) :
    x.annotations = y.annotations ∧ x.bare.bitfields = y.bare.bitfields ∧
      x.bare.enums = y.bare.enums ∧ x.bare.structs = y.bare.structs ∧
      x.bare.functions = y.bare.functions := by
  rw [← encodable_bare] at hx hy
  rw [← membersLayout_bare x, ← membersLayout_bare y] at h
  obtain ⟨hxa, hxb, hxe, hxs, hxf⟩ := hx
  obtain ⟨hya, hyb, hye, hys, hyf⟩ := hy
  simp only [membersLayout, encode_append] at h
  obtain ⟨ha, h⟩ := reads_annotations.encode_injective hxa hya h
  obtain ⟨hb, h⟩ := (BinaryReader.reads_counted reads_bitfield).encode_injective
    ((allEncodable_and_bare _).2 ⟨hxb, by simp [bare]⟩)
    ((allEncodable_and_bare _).2 ⟨hyb, by simp [bare]⟩) h
  obtain ⟨he, h⟩ := (BinaryReader.reads_counted reads_enum).encode_injective
    ((allEncodable_and_bare _).2 ⟨hxe, by simp [bare]⟩)
    ((allEncodable_and_bare _).2 ⟨hye, by simp [bare]⟩) h
  obtain ⟨hs, h⟩ := (BinaryReader.reads_counted reads_struct).encode_injective
    ((allEncodable_and_bare _).2 ⟨hxs, by simp [bare]⟩)
    ((allEncodable_and_bare _).2 ⟨hys, by simp [bare]⟩) h
  rw [← List.append_nil (encode _), ← List.append_nil (encode (Layout.counted _ y.bare.functions))]
    at h
  obtain ⟨hf, -⟩ := (BinaryReader.reads_counted reads_functionNode).encode_injective
    ((allEncodable_and_bare _).2 ⟨hxf, by simp [bare]⟩)
    ((allEncodable_and_bare _).2 ⟨hyf, by simp [bare]⟩) h
  exact ⟨ha, hb, he, hs, hf⟩

/-- A revision tree determines the previous hash and every encoded field. -/
theorem encode_layout_injective {x y : AbiversionNode} (hx : x.Encodable) (hy : y.Encodable)
    {p q : Hash} (h : encode (x.layout p) = encode (y.layout q)) : p = q ∧ x.bare = y.bare := by
  simp only [layout, encode_append] at h
  obtain ⟨hv, h⟩ := BinaryReader.reads_u64.encode_injective trivial trivial h
  obtain ⟨hp, h⟩ := BinaryReader.reads_hash.encode_injective trivial trivial h
  obtain ⟨ha, hb, he, hs, hf⟩ := encode_membersLayout_injective hx hy h
  refine ⟨hp, ?_⟩
  unfold bare at *
  simp_all

end AbiversionNode

namespace InterfaceNode

/-- The message hashed for a revision determines what it was built from. -/
theorem revisionPreimage_injective {I J : InterfaceNode} {x y : AbiversionNode} (hx : x.Encodable)
    (hy : y.Encodable) {p q : Hash} (h : I.revisionPreimage x p = J.revisionPreimage y q) :
    I.uuid = J.uuid ∧ p = q ∧ x.bare = y.bare := by
  have htail := List.append_cancel_left h
  obtain ⟨huuid, htree⟩ := List.append_inj htail (by simp)
  exact ⟨Vector.toList_inj.1 huuid, AbiversionNode.encode_layout_injective hx hy htree⟩

/-- The messages hashed along a chain of revisions. -/
def preimages (interface : InterfaceNode) : Hash → List AbiversionNode → List Bytes
  | _, [] => []
  | previousHash, node :: nodes =>
    interface.revisionPreimage node previousHash ::
      interface.preimages (interface.revisionHash node previousHash) nodes

/-! ### Chains from their ends -/

variable (interface : InterfaceNode)

theorem lastHash_append_singleton (previousHash : Hash) (nodes : List AbiversionNode)
    (node : AbiversionNode) :
    interface.lastHash previousHash (nodes ++ [node])
      = interface.revisionHash node (interface.lastHash previousHash nodes) := by
  induction nodes generalizing previousHash with
  | nil => rfl
  | cons x xs ih => exact ih _

theorem preimages_append_singleton (previousHash : Hash) (nodes : List AbiversionNode)
    (node : AbiversionNode) :
    interface.preimages previousHash (nodes ++ [node])
      = interface.preimages previousHash nodes
        ++ [interface.revisionPreimage node (interface.lastHash previousHash nodes)] := by
  induction nodes generalizing previousHash with
  | nil => rfl
  | cons x xs ih => exact congrArg _ (ih _)

/-- The last hash of a chain that is not empty is the last of its hashes. -/
theorem getLast?_stampRevisions (previousHash : Hash) {nodes : List AbiversionNode}
    (hne : nodes ≠ []) :
    ((interface.stampRevisions previousHash nodes).map AbiversionNode.abiHash).getLast?
      = some (interface.lastHash previousHash nodes) := by
  obtain ⟨xs, x, rfl⟩ := List.eq_nil_or_concat nodes |>.resolve_left hne
  rw [List.concat_eq_append, stampRevisions_append, List.map_append, lastHash_append_singleton]
  simp [stampRevisions, AbiversionNode.stamp]

end InterfaceNode

/-- The numbering of a chain survives the loss of its last revision. -/
theorem Contiguous.of_append_singleton {nodes : List AbiversionNode} {node : AbiversionNode}
    (h : Contiguous (nodes ++ [node])) : Contiguous nodes ∧ node.version.toNat = nodes.length := by
  refine ⟨fun i x hi => h i x ?_, h nodes.length node (by simp)⟩
  have hlt := (List.getElem?_eq_some_iff.1 hi).1
  rwa [List.getElem?_append_left hlt]

/-- Chains with the same last hash are equal, going backwards: the last messages are equal, and with
them the hashes that the chains without their last revisions end in. -/
theorem chains_eq_of_lastHash_eq {I J : InterfaceNode} (xs ys : List AbiversionNode)
    (hxs : xs ≠ []) (hys : ys ≠ []) (hx : ∀ node ∈ xs, node.Encodable)
    (hy : ∀ node ∈ ys, node.Encodable) (hvx : Contiguous xs) (hvy : Contiguous ys)
    (hinj : ∀ p ∈ I.preimages zeroHash xs, ∀ q ∈ J.preimages zeroHash ys,
      Sha256.digest p = Sha256.digest q → p = q)
    (h : I.lastHash zeroHash xs = J.lastHash zeroHash ys) :
    I.uuid = J.uuid ∧ xs.map AbiversionNode.bare = ys.map AbiversionNode.bare := by
  induction xs using List.reverseRecOn generalizing ys with
  | nil => exact absurd rfl hxs
  | append_singleton xs x ih =>
    obtain ⟨ys, y, rfl⟩ := List.eq_nil_or_concat ys |>.resolve_left hys
    rw [List.concat_eq_append] at *
    simp only [InterfaceNode.preimages_append_singleton, InterfaceNode.lastHash_append_singleton,
      List.forall_mem_append, List.forall_mem_singleton] at hinj h hx hy
    have hpre := hinj.2.2 h
    obtain ⟨huuid, hlast, hbare⟩ := InterfaceNode.revisionPreimage_injective hx.2 hy.2 hpre
    obtain ⟨hvxs, hvxl⟩ := hvx.of_append_singleton
    obtain ⟨hvys, hvyl⟩ := hvy.of_append_singleton
    have hlen : xs.length = ys.length := by
      rw [← hvxl, ← hvyl]
      exact congrArg (fun node => node.version.toNat) hbare
    refine ⟨huuid, ?_⟩
    rw [List.map_append, List.map_append, List.map_singleton, List.map_singleton, hbare]
    congr 1
    by_cases hnil : xs = []
    · subst hnil
      rw [List.length_eq_zero_iff.1 hlen.symm]
    · have hnil' : ys ≠ [] := by
        rintro rfl
        exact hnil (List.length_eq_zero_iff.1 hlen)
      exact (ih ys hnil hnil' hx.1 hy.1 hvxs hvys (fun p hp => (hinj.1 p hp).1) hlast).2

/-- **The last hash binds the whole history.** -/
theorem revisionHashes_binding (I J : InterfaceNode) (xs ys : List AbiversionNode)
    (hxs : xs ≠ []) (hys : ys ≠ []) (hvx : Contiguous xs) (hvy : Contiguous ys)
    (hashes hashes' : List Hash) (hI : revisionHashes I zeroHash xs = .ok hashes)
    (hJ : revisionHashes J zeroHash ys = .ok hashes') (hlast : hashes.getLast? = hashes'.getLast?)
    (hinj : ∀ p ∈ I.preimages zeroHash xs, ∀ q ∈ J.preimages zeroHash ys,
      Sha256.digest p = Sha256.digest q → p = q) :
    xs.length = ys.length ∧ I.uuid = J.uuid ∧
      xs.map AbiversionNode.bare = ys.map AbiversionNode.bare := by
  have hu : I.hasUuid = true := by
    by_contra hu
    exact revisionHashes_ne_ok I (by simpa using hu) _ hxs _ hI
  have hu' : J.hasUuid = true := by
    by_contra hu'
    exact revisionHashes_ne_ok J (by simpa using hu') _ hys _ hJ
  obtain ⟨hx, rfl⟩ := (revisionHashes_eq_ok_iff I hu ..).1 hI
  obtain ⟨hy, rfl⟩ := (revisionHashes_eq_ok_iff J hu' ..).1 hJ
  rw [I.getLast?_stampRevisions _ hxs, J.getLast?_stampRevisions _ hys] at hlast
  obtain ⟨huuid, hbare⟩ := chains_eq_of_lastHash_eq xs ys hxs hys hx hy hvx hvy hinj
    (Option.some.inj hlast)
  refine ⟨?_, huuid, hbare⟩
  have hlen := congrArg List.length hbare
  rwa [List.length_map, List.length_map] at hlen

/-- The hash of the first revision of a sample. -/
def sampleHash : Hash :=
  #v[145, 77, 34, 3, 217, 37, 52, 71, 25, 114, 234, 184, 180, 146, 53, 96, 86, 141, 229, 219, 129,
    163, 5, 54, 199, 5, 21, 7, 180, 217, 254, 57]

theorem uuid_sample :
    (sampleInterface []).uuid
      = #v[177, 235, 212, 75, 19, 74, 91, 218, 153, 222, 57, 251, 25, 162, 163, 173] := by
  decide +kernel

theorem revisionHash_sample :
    (sampleInterface []).revisionHash (sampleRevision 0 0) zeroHash = sampleHash := by
  unfold InterfaceNode.revisionHash InterfaceNode.revisionPreimage
  rw [uuid_sample]
  decide +kernel

theorem revisionHash_sample_ne :
    sampleHash ≠ (sampleInterface []).revisionHash { version := 1 } sampleHash := by
  unfold InterfaceNode.revisionHash InterfaceNode.revisionPreimage
  rw [uuid_sample]
  decide +kernel

/-- Two revisions with and without type sizes, of interfaces with the same identity: the messages
along the chains are the same two, and their digests differ. -/
theorem revisionHashes_binding_sample :
    (sampleInterface []).uuid = { sampleInterface [] with name := ascii "other" }.uuid ∧
      [sampleRevision 0 0, { version := 1 }].map AbiversionNode.bare
        = [(sampleRevision 0 0).bare, { version := 1 }].map AbiversionNode.bare := by
  have hcontiguous (x : AbiversionNode) (hx : x.version = 0) :
      Contiguous [x, { version := 1 }] := by
    rintro (_ | _ | i) node hi
    · obtain rfl := Option.some.inj hi
      rw [hx]
      rfl
    · obtain rfl := Option.some.inj hi
      rfl
    · simp at hi
  have hpreimages : { sampleInterface [] with name := ascii "other" }.preimages zeroHash
        [(sampleRevision 0 0).bare, { version := 1 }]
      = (sampleInterface []).preimages zeroHash [sampleRevision 0 0, { version := 1 }] := by
    simp only [InterfaceNode.preimages, InterfaceNode.revisionHash_bare,
      InterfaceNode.revisionPreimage, AbiversionNode.layout_bare]
    rfl
  refine (revisionHashes_binding (sampleInterface [])
    { sampleInterface [] with name := ascii "other" } [sampleRevision 0 0, { version := 1 }]
    [(sampleRevision 0 0).bare, { version := 1 }] (by simp) (by simp) (hcontiguous _ rfl)
    (hcontiguous _ rfl) _ _ ((revisionHashes_eq_ok_iff _ rfl ..).2 ⟨by decide, rfl⟩)
    ((revisionHashes_eq_ok_iff _ rfl ..).2 ⟨by decide, rfl⟩) ?_ ?_).2
  · simp only [InterfaceNode.stampRevisions, InterfaceNode.revisionHash_bare]
    rfl
  · rw [hpreimages]
    intro p hp q hq hdigest
    simp only [InterfaceNode.preimages, revisionHash_sample, List.mem_cons, List.not_mem_nil,
      or_false] at hp hq
    rcases hp with rfl | rfl <;> rcases hq with rfl | rfl
    · rfl
    · exact absurd (revisionHash_sample.symm.trans hdigest) revisionHash_sample_ne
    · exact absurd (revisionHash_sample.symm.trans hdigest.symm) revisionHash_sample_ne
    · rfl

end Sidlc
