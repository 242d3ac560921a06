import Mathlib.Algebra.Group.Action.Defs
import Mathlib.Algebra.Order.BigOperators.Group.List
import Mathlib.Algebra.Order.Ring.Nat
import ShaderPack.Proofs.ContainerReader

/-!
# The length of the blob section

A store refuses a blob when its pool would get longer than `BlobStore.limit`. The section in a
container has more bytes than the pool: a count and, before each blob, a length
(`BlobStore.framing`). The header keeps the lowest 32 bits of the section's length.

So what the header says is true exactly if pool and framing together stay within the limit, and then
the sections behind the blobs are found (`Container.blobs_length_told`). The store checks the pool
alone: it takes blobs with which the header is wrong (`Container.accepted_blob_untold`).
-/

namespace ShaderPack

namespace Varint

/-- A number below `128 ^ k` takes at most `k` bytes. -/
theorem length_encodeNat_le (groups n : Nat) (h : n < 128 ^ (groups + 1)) :
    (encodeNat n).length ≤ groups + 1 := by
  induction groups generalizing n with
  | zero =>
      rw [encodeNat, if_pos (by omega)]
      simp
  | succ groups ih =>
      have hdiv : n / 128 < 128 ^ (groups + 1) := Nat.div_lt_of_lt_mul (by rwa [← Nat.pow_succ'])
      have hrest := ih (n / 128) hdiv
      rw [encodeNat]
      split
      · simp
      · simpa using hrest

/-- Five groups are enough for a 32-bit number. -/
theorem length_encode_le (n : UInt32) : (encode n).length ≤ 5 := by
  have hn := n.toNat_lt
  exact length_encodeNat_le 4 n.toNat (by omega)

end Varint

/-! ### Stores -/

namespace BlobStore

variable {s s' : BlobStore} {blob : Bytes} {blobs : List Bytes} {id : UInt32}

/-- What the counts of a store tell of storing a blob is all there is to tell. -/
theorem extent_add? (s : BlobStore) (blob : Bytes) :
    (s.add? blob).map (fun added => (added.1.extent, added.2)) = s.extent.add? blob.length := by
  have hpool : (s.pool ++ blob).size = s.pool.size + blob.length := by
    rw [← Array.length_toList, Array.toList_appendList, List.length_append, Array.length_toList]
  by_cases hle : s.byteCount + blob.length ≤ limit
  · rw [add?, Extent.add?, if_pos hle, if_pos (by exact hle)]
    simp [extent, count, byteCount, hpool]
  · rw [add?, Extent.add?, if_neg hle, if_neg (by exact hle)]
    rfl

/-- A blob has room if its bytes fit in the pool. The store then has that many bytes more. -/
theorem exists_add?_iff {n : Nat} : (∃ s' id, s.add? blob = some (s', id) ∧ s'.byteCount = n) ↔
    s.byteCount + blob.length ≤ limit ∧ n = s.byteCount + blob.length := by
  have hextent := extent_add? s blob
  rw [Extent.add?] at hextent
  constructor
  · rintro ⟨s', id, hadd, rfl⟩
    rw [hadd, Option.map_some] at hextent
    split at hextent
    · next hle =>
      have hsame := Option.some.inj hextent
      exact ⟨hle, congrArg (fun counts => counts.1.byteCount) hsame⟩
    · cases hextent
  · rintro ⟨hle, rfl⟩
    rw [if_pos (by exact hle)] at hextent
    obtain ⟨⟨s', id⟩, hadd, hsame⟩ := Option.map_eq_some_iff.mp hextent
    exact ⟨s', id, hadd, congrArg (fun counts => counts.1.byteCount) hsame⟩

/-- The store after all these blobs, if there is room for them. -/
def addAll? (s : BlobStore) (blobs : List Bytes) : Option BlobStore :=
  blobs.foldlM (fun s blob => (s.add? blob).map Prod.fst) s

/-- All blobs are taken exactly if the first is and then the others are. -/
theorem addAll?_cons_eq_some : s.addAll? (blob :: blobs) = some s' ↔
    ∃ next id, s.add? blob = some (next, id) ∧ next.addAll? blobs = some s' := by
  rw [addAll?, List.foldlM_cons, Option.bind_eq_bind, Option.bind_eq_some_iff]
  simp only [Option.map_eq_some_iff, Prod.exists, exists_and_right, exists_eq_right]
  rfl

/-- The lengths of the blobs, in the order of their ids. -/
def lengths (s : BlobStore) : List Nat := s.spans.toList.map fun span => span.length.toNat

/-- The bytes that a section has besides blobs of these lengths: their count and the lengths. -/
def framing (lengths : List Nat) : Nat :=
  (Varint.encodeCount lengths.length).length +
    (lengths.map fun n => (Varint.encodeCount n).length).sum

/-- Counts and lengths take at most five bytes each. -/
theorem framing_le (lengths : List Nat) : framing lengths ≤ 5 * (lengths.length + 1) := by
  have hcount : (Varint.encodeCount lengths.length).length ≤ 5 := Varint.length_encode_le _
  have hsum : (lengths.map fun n => (Varint.encodeCount n).length).sum ≤ lengths.length * 5 := by
    rw [← smul_eq_mul, ← List.length_map (fun n => (Varint.encodeCount n).length)]
    apply List.sum_le_card_nsmul
    intro width hwidth
    obtain ⟨n, -, rfl⟩ := List.mem_map.mp hwidth
    exact Varint.length_encode_le _
  rw [framing]
  omega

/-- They take a byte at least. -/
theorem framing_pos (lengths : List Nat) : 0 < framing lengths :=
  Nat.add_pos_left (List.length_pos_of_ne_nil (Varint.encode_ne_nil _)) _

/-- The bytes of blobs in a section: for each its length and itself. -/
theorem length_flatMap_spans (h : s.InPool) (spans : List Span)
    (hspans : ∀ span ∈ spans, span ∈ s.spans) :
    (spans.flatMap fun span => Varint.encode span.length ++ s.slice span).length =
      ((spans.map fun span => span.length.toNat).map fun n => (Varint.encodeCount n).length).sum +
        (spans.map fun span => span.length.toNat).sum := by
  induction spans with
  | nil => rfl
  | cons span spans ih =>
      have hslice := h.length_slice (hspans span List.mem_cons_self)
      have hrest := ih fun x hx => hspans x (List.mem_cons_of_mem _ hx)
      simp only [List.flatMap_cons, List.length_append, List.map_cons, List.sum_cons, hslice, hrest,
        Varint.encodeCount, UInt32.ofNat_toNat]
      omega

/-- The section is as long as the blobs and their framing. -/
theorem length_toBytes (h : s.InPool) : s.toBytes.length = framing s.lengths + s.lengths.sum := by
  have hspans :=
    length_flatMap_spans h s.spans.toList fun span hspan => Array.mem_toList_iff.mp hspan
  have hcount : s.count = s.lengths.length := by simp [lengths, count]
  rw [toBytes, List.length_append, hspans, framing, ← hcount]
  exact (Nat.add_assoc _ _ _).symm

theorem inPool_empty : empty.InPool := by
  intro span hspan
  simp [empty] at hspan

/-- A blob that is taken adds its length. -/
theorem lengths_add? (h : s.add? blob = some (s', id)) :
    s'.lengths = s.lengths ++ [blob.length] := by
  obtain ⟨hle, -, hspans, -⟩ := add?_eq_some h
  rw [limit, UInt32.size] at hle
  have hlength : (UInt32.ofNat blob.length).toNat = blob.length :=
    UInt32.toNat_ofNat_of_lt' (by rw [UInt32.size]; omega)
  rw [lengths, hspans, Array.toList_push, List.map_append, List.map_singleton, hlength]
  rfl

/-- What storing blobs does to the lengths. -/
theorem addAll?_spec (hpool : s.InPool) (h : s.addAll? blobs = some s') :
    s'.InPool ∧ s'.lengths = s.lengths ++ blobs.map List.length := by
  induction blobs generalizing s with
  | nil =>
      cases h
      exact ⟨hpool, (List.append_nil _).symm⟩
  | cons blob blobs ih =>
      obtain ⟨next, id, hadd, hrest⟩ := addAll?_cons_eq_some.mp h
      obtain ⟨hpool', hlengths⟩ := ih (hpool.add? hadd) hrest
      refine ⟨hpool', ?_⟩
      rw [hlengths, lengths_add? hadd, List.append_assoc]
      rfl

/-- There is room for blobs if their bytes fit in the pool; the framing does not count. -/
theorem exists_addAll?_iff (hs : s.byteCount ≤ limit) :
    (∃ s', s.addAll? blobs = some s') ↔ s.byteCount + (blobs.map List.length).sum ≤ limit := by
  -- the room that a blob leaves is the room for the others, so the store has to be free
  induction blobs generalizing s with
  | nil => simpa [addAll?] using hs
  | cons blob blobs ih =>
      rw [List.map_cons, List.sum_cons, ← Nat.add_assoc]
      constructor
      · rintro ⟨s', h⟩
        obtain ⟨next, id, hadd, hrest⟩ := addAll?_cons_eq_some.mp h
        obtain ⟨hle, hnext⟩ := exists_add?_iff.mp ⟨next, id, hadd, rfl⟩
        rw [← hnext]
        exact (ih (hnext ▸ hle)).mp ⟨s', hrest⟩
      · intro hle
        obtain ⟨next, id, hadd, hnext⟩ := exists_add?_iff.mpr ⟨Nat.le_of_add_right_le hle, rfl⟩
        obtain ⟨s', hrest⟩ := (ih (by omega)).mpr (hnext ▸ hle)
        exact ⟨s', addAll?_cons_eq_some.mpr ⟨next, id, hadd, hrest⟩⟩

/-- An empty store takes all blobs exactly if together they are within the limit. -/
theorem exists_addAll?_empty_iff :
    (∃ s, empty.addAll? blobs = some s) ↔ (blobs.map List.length).sum ≤ limit := by
  rw [exists_addAll?_iff (Nat.zero_le _)]
  exact Eq.to_iff (congrArg (· ≤ limit) (Nat.zero_add _))

/-- The length of the section, told from the blobs that were taken. -/
theorem length_toBytes_of_addAll? (h : empty.addAll? blobs = some s) :
    s.toBytes.length = framing (blobs.map List.length) + (blobs.map List.length).sum := by
  obtain ⟨hpool, hlengths⟩ := addAll?_spec inPool_empty h
  have hlengths' : s.lengths = blobs.map List.length := hlengths
  rw [length_toBytes hpool, hlengths']

end BlobStore

/-! ### Headers -/

namespace Container

/-- Number `i` in a row of numbers of four bytes. -/
theorem take_drop_flatMap_littleEndian {ns : List Nat} {i n : Nat} (h : ns[i]? = some n)
    (rest : Bytes) :
    ((ns.flatMap (Bytes.littleEndian 4) ++ rest).drop (4 * i)).take 4 = Bytes.littleEndian 4 n := by
  induction ns generalizing i with
  | nil => simp at h
  | cons m ns ih =>
      rw [List.flatMap_cons, List.append_assoc]
      cases i with
      | zero =>
          cases h
          exact List.take_left' (Bytes.length_littleEndian 4 n)
      | succ i =>
          rw [Nat.mul_succ, Nat.add_comm, ← List.drop_drop,
            List.drop_left' (Bytes.length_littleEndian 4 m)]
          exact ih h

/-- The length of section number `i`, as the header tells it. -/
def lengthField (c : Container) (i : Nat) : Nat :=
  Bytes.ofLittleEndian ((c.toBytes.drop (8 + 4 * i)).take 4)

/-- The header keeps the lowest 32 bits of a length. -/
theorem lengthField_eq {c : Container} {i : Nat} {bytes : Bytes} (h : c.sections[i]? = some bytes) :
    c.lengthField i = bytes.length % 2 ^ 32 := by
  have hlength : (c.sections.map List.length)[i]? = some bytes.length := by
    rw [List.getElem?_map, h]; rfl
  have hfront :
      (magic ++ Bytes.littleEndian 2 version ++ Bytes.littleEndian 2 c.flags.toNat).length = 8 := by
    simp [magic, Bytes.length_littleEndian]
  rw [lengthField, toBytes, header, List.append_assoc, ← List.drop_drop, List.drop_left' hfront,
    take_drop_flatMap_littleEndian hlength]
  exact Bytes.ofLittleEndian_littleEndian 4 bytes.length

/-- The header has eight bytes and four for each section. -/
theorem length_header (flags : UInt16) (lengths : List Nat) :
    (header flags lengths).length = 8 + 4 * lengths.length := by
  simp [header, magic, Bytes.length_littleEndian]
  omega

/-- What follows the blobs is found where the header says, if it says the truth about the strings
and the blobs. -/
theorem drop_lengthField_iff {c : Container} (hstrings : c.strings.toBytes.length < 2 ^ 32) :
    c.toBytes.drop (24 + c.lengthField 0 + c.lengthField 1) = c.dependencies.toBytes ++ c.code ↔
      c.blobs.toBytes.length < 2 ^ 32 := by
  have hfield : c.lengthField 0 = c.strings.toBytes.length :=
    (lengthField_eq rfl).trans (Nat.mod_eq_of_lt hstrings)
  have hfield' : c.lengthField 1 = c.blobs.toBytes.length % 2 ^ 32 := lengthField_eq rfl
  have hdrop : c.toBytes.drop (24 + c.lengthField 0 + c.lengthField 1) =
      (c.blobs.toBytes ++ (c.dependencies.toBytes ++ c.code)).drop
        (c.blobs.toBytes.length % 2 ^ 32) := by
    have hheader : (header c.flags (c.sections.map List.length)).length = 24 := length_header _ _
    have hflatten : c.sections.flatten =
        c.strings.toBytes ++ (c.blobs.toBytes ++ (c.dependencies.toBytes ++ c.code)) := by
      simp [sections]
    rw [hfield, hfield', toBytes, ← List.drop_drop, ← List.drop_drop, List.drop_left' hheader,
      hflatten, List.drop_left]
  rw [hdrop]
  constructor
  · intro hfound
    have hlen := congrArg List.length hfound
    rw [List.length_drop, List.length_append] at hlen
    omega
  · intro hshort
    rw [Nat.mod_eq_of_lt hshort, List.drop_left]

/-- **When the header is right about the blobs.** The blobs are those that a store takes: all that
it asks is that their bytes are not more than the limit. The section is longer than that by its
framing. The header tells its length, lowest 32 bits only, and so a reader finds the sections behind
it exactly if blobs and framing together stay within the limit. This is sure if there is room for
five bytes more, and for five with each blob. -/
theorem blobs_length_told (blobs : List Bytes) :
    ((∃ s, BlobStore.empty.addAll? blobs = some s) ↔
      (blobs.map List.length).sum ≤ BlobStore.limit) ∧
    ∀ c : Container, BlobStore.empty.addAll? blobs = some c.blobs →
    c.strings.toBytes.length < 2 ^ 32 →
      c.blobs.toBytes.length =
        BlobStore.framing (blobs.map List.length) + (blobs.map List.length).sum ∧
      c.lengthField 1 = c.blobs.toBytes.length % 2 ^ 32 ∧
      (c.toBytes.drop (24 + c.lengthField 0 + c.lengthField 1) = c.dependencies.toBytes ++ c.code ↔
        BlobStore.framing (blobs.map List.length) + (blobs.map List.length).sum ≤ BlobStore.limit) ∧
      (5 * (blobs.length + 1) + (blobs.map List.length).sum ≤ BlobStore.limit →
        c.lengthField 1 = c.blobs.toBytes.length) := by
  refine ⟨BlobStore.exists_addAll?_empty_iff, ?_⟩
  intro c hblobs hstrings
  have hlength := BlobStore.length_toBytes_of_addAll? hblobs
  have hfield : c.lengthField 1 = c.blobs.toBytes.length % 2 ^ 32 := lengthField_eq rfl
  have hframing := BlobStore.framing_le (blobs.map List.length)
  rw [List.length_map] at hframing
  have hlimit : BlobStore.limit = 2 ^ 32 - 1 := rfl
  refine ⟨hlength, hfield, ?_, ?_⟩
  · rw [drop_lengthField_iff hstrings, hlength, hlimit]
    exact Nat.lt_iff_le_pred (by decide)
  · intro hroom
    rw [hfield, Nat.mod_eq_of_lt]
    omega

/-- The largest blob that a store takes, alone in a container. The header says that the section has
five bytes. -/
theorem largest_blob_told :
    ∃ c : Container,
    BlobStore.empty.addAll? [List.replicate BlobStore.limit 97] = some c.blobs ∧
      c.strings.toBytes.length < 2 ^ 32 ∧ c.blobs.toBytes.length = 2 ^ 32 + 5 ∧
      c.lengthField 1 = 5 ∧
      c.toBytes.drop (24 + c.lengthField 0 + c.lengthField 1) ≠
        c.dependencies.toBytes ++ c.code := by
  have hframing : BlobStore.framing [BlobStore.limit] = 6 := by decide +kernel
  obtain ⟨htaken, htold⟩ := blobs_length_told [List.replicate BlobStore.limit 97]
  simp only [List.map_cons, List.map_nil, List.length_replicate, List.sum_singleton, hframing,
    le_refl, iff_true] at htaken htold
  obtain ⟨s, hs⟩ := htaken
  have hstrings : (StringTable.empty.toBytes).length < 2 ^ 32 := by decide +kernel
  obtain ⟨hlength, hfield, hfound, -⟩ := htold { empty with blobs := s } hs hstrings
  refine ⟨{ empty with blobs := s }, hs, hstrings, hlength, ?_, ?_⟩
  · rw [hfield, hlength]
    rfl
  · intro h
    have hle := hfound.mp h
    omega

/-- Not every store whose blobs were all taken has a section as long as the header says. -/
theorem accepted_blob_untold : ¬ ∀ (blobs : List Bytes) (c : Container),
    BlobStore.empty.addAll? blobs = some c.blobs →
      c.blobs.toBytes.length ≤ BlobStore.limit ∧ c.lengthField 1 = c.blobs.toBytes.length := by
  intro h
  have hsum : ([List.replicate BlobStore.limit (97 : UInt8)].map List.length).sum =
      BlobStore.limit := by
    simp only [List.map_cons, List.map_nil, List.length_replicate, List.sum_singleton]
  obtain ⟨s, hs⟩ := BlobStore.exists_addAll?_empty_iff.mpr hsum.le
  have hlength := BlobStore.length_toBytes_of_addAll? hs
  have hle : s.toBytes.length ≤ BlobStore.limit := (h _ { empty with blobs := s } hs).1
  have hpos := BlobStore.framing_pos ([List.replicate BlobStore.limit (97 : UInt8)].map List.length)
  omega

end Container

end ShaderPack
