import ShaderPack.Varint

/-!
# The blob store

Code is stored as blobs, one after another in one pool of bytes. A blob is known by the count of
blobs stored before it; a span tells where it lies in the pool. Offsets and lengths are 32-bit
numbers, so the pool holds at most `BlobStore.limit` bytes.
-/

namespace ShaderPack

/-- Where a blob lies in the pool. -/
structure Span where
  /-- The position of its first byte. -/
  offset : UInt32
  /-- Its count of bytes. -/
  length : UInt32
  deriving DecidableEq, Repr

/-- Blobs in one pool of bytes. -/
structure BlobStore where
  /-- The bytes of all blobs, in the order in which they were stored. -/
  pool : Array UInt8
  /-- The place of each blob. -/
  spans : Array Span

namespace BlobStore

/-- The store without blobs. -/
def empty : BlobStore := ⟨#[], #[]⟩

instance : Inhabited BlobStore := ⟨empty⟩

/-- The most bytes the pool can hold. -/
def limit : Nat := UInt32.size - 1

/-- The number of blobs. -/
def count (s : BlobStore) : Nat := s.spans.size

/-- The number of bytes in the pool. -/
def byteCount (s : BlobStore) : Nat := s.pool.size

/-- Store a blob at the end of the pool and give its id, or `none` if the pool would get too
long. -/
def add? (s : BlobStore) (blob : Bytes) : Option (BlobStore × UInt32) :=
  if s.byteCount + blob.length ≤ limit then
    some
      ({ pool := s.pool ++ blob
         spans := s.spans.push ⟨UInt32.ofNat s.byteCount, UInt32.ofNat blob.length⟩ },
        UInt32.ofNat s.count)
  else none

/-- The counts of a store. -/
structure Extent where
  /-- The number of blobs. -/
  count : Nat
  /-- The number of bytes in the pool. -/
  byteCount : Nat
  deriving DecidableEq, Repr

/-- The counts of this store. -/
def extent (s : BlobStore) : Extent := ⟨s.count, s.byteCount⟩

/-- The counts after a blob of that many bytes and its id, or `none` if the pool would get too
long. -/
def Extent.add? (e : Extent) (length : Nat) : Option (Extent × UInt32) :=
  if e.byteCount + length ≤ limit then
    some (⟨e.count + 1, e.byteCount + length⟩, UInt32.ofNat e.count)
  else none

/-- The bytes of the pool in a span. -/
def slice (s : BlobStore) (span : Span) : Bytes :=
  (s.pool.extract span.offset.toNat (span.offset.toNat + span.length.toNat)).toList

/-- The place of a blob. -/
def span? (s : BlobStore) (id : UInt32) : Option Span := s.spans[id.toNat]?

/-- The position of a blob in the pool. -/
def offset? (s : BlobStore) (id : UInt32) : Option UInt32 := (s.span? id).map Span.offset

/-- The bytes of a blob, if its span lies in the pool. -/
def blob? (s : BlobStore) (id : UInt32) : Option Bytes := do
  let span ← s.span? id
  if span.offset.toNat + span.length.toNat ≤ s.byteCount then some (s.slice span) else none

/-- The blobs, in the order of their ids. -/
def blobs (s : BlobStore) : List Bytes := s.spans.toList.map s.slice

/-- The section of a container: the count of blobs, then each blob behind its length. -/
def toBytes (s : BlobStore) : Bytes :=
  Varint.encodeCount s.count ++
    s.spans.toList.flatMap fun span => Varint.encode span.length ++ s.slice span

end BlobStore

end ShaderPack
