import ShaderPack.Proofs.Expansion
import ShaderPack.Proofs.InstructionStream
import ShaderPack.Proofs.Links

/-!
# Containers read back

A container's bytes say everything that is in it. To see this, there is a reader: it follows the
header to the four sections, and inside a section it follows the counts and lengths that stand in
front of lists, strings and blobs. What it finds is what was put in (`Container.read?_toBytes`), as
long as no section is too long for the header.

* `Reader.Reads`: a reader takes some bytes as a value, whatever follows them. There is one lemma
  for each way of making a reader, so the lemma about containers is put together as their reader is.
* `Reader.reads_counted`: lists of anything that can be read back can be read back.
* `Container.Built`: the container was made from the empty one by adding to its sections and setting
  flags. All that matters of this is that the spans of its blobs lie in the pool (`Built.inPool`).
-/

namespace ShaderPack

namespace Bytes

/-- The number that some bytes stand for, lowest byte first. -/
def ofLittleEndian : Bytes → Nat
  | [] => 0
  | b :: rest => b.toNat + 256 * ofLittleEndian rest

/-- A number is read back from its bytes, as far as the bytes have room for it. -/
theorem ofLittleEndian_littleEndian (width n : Nat) :
    ofLittleEndian (littleEndian width n) = n % 256 ^ width := by
  induction width generalizing n with
  | zero => simp [littleEndian, ofLittleEndian, Nat.mod_one]
  | succ width ih =>
      have hsplit : n % 256 ^ (width + 1) = n % 256 + 256 * (n / 256 % 256 ^ width) := by
        rw [Nat.pow_succ', Nat.mod_mul]
      rw [littleEndian, ofLittleEndian, ih, hsplit, UInt8.toNat_ofNat']

end Bytes

/-- Every number takes a byte at least. -/
theorem Varint.encode_ne_nil (n : UInt32) : encode n ≠ [] := by
  rw [encode, encodeNat]
  split <;> simp

/-! ### Readers -/

/-- A reader takes a value off the front of a byte string and leaves what follows, or refuses the
bytes. -/
abbrev Reader := StateT Bytes Option

namespace Reader

variable {α β ι : Type}

/-- The variable-length number at the front. -/
def number : Reader UInt32 := fun bytes =>
  match Varint.decode bytes with
  | (none, _) => none
  | (some n, used) => some (n, bytes.drop used)

/-- The next `n` bytes. -/
def block (n : Nat) : Reader Bytes := fun bytes =>
  if n ≤ bytes.length then some (bytes.take n, bytes.drop n) else none

/-- Nothing but these bytes. -/
def expect (wanted : Bytes) : Reader Unit := do
  let bytes ← block wanted.length
  if bytes = wanted then pure () else failure

/-- A number in a fixed count of bytes, lowest first. -/
def word (width : Nat) : Reader Nat := do
  let bytes ← block width
  return Bytes.ofLittleEndian bytes

/-- A length, and as many bytes. -/
def sized : Reader Bytes := do
  let n ← number
  block n.toNat

/-- The same `n` times. -/
def times (r : Reader α) : (n : Nat) → Reader (List α)
  | 0 => pure []
  | n + 1 => do
    let x ← r
    let xs ← times r n
    return x :: xs

/-- A count, and the same as often. -/
def counted (r : Reader α) : Reader (List α) := do
  let n ← number
  times r n.toNat

/-- What `r` makes of the next `n` bytes. It has to use all of them. -/
def enclosed (n : Nat) (r : Reader α) : Reader α := do
  let bytes ← block n
  match r bytes with
  | some (x, []) => pure x
  | _ => failure

/-! ### What is read back -/

/-- The reader takes `bytes` as `x`, whatever follows them. -/
def Reads (r : Reader α) (bytes : Bytes) (x : α) : Prop :=
  ∀ rest, r (bytes ++ rest) = some (x, rest)

/-- A reader that takes nothing gives its result on no bytes. -/
theorem reads_pure (x : α) : Reads (pure x) [] x := fun _ => rfl

/-- Two readers one after the other read what both read, put together. -/
theorem Reads.bind {r : Reader α} {f : α → Reader β} {bytes bytes' : Bytes} {x : α} {y : β}
    (hr : Reads r bytes x) (hf : Reads (f x) bytes' y) : Reads (r >>= f) (bytes ++ bytes') y := by
  intro rest
  rw [List.append_assoc]
  change (r (bytes ++ (bytes' ++ rest))).bind (fun p => f p.1 p.2) = some (y, rest)
  rw [hr]
  exact hf rest

/-- A last step that reads nothing. -/
theorem Reads.bind_nil {r : Reader α} {f : α → Reader β} {bytes : Bytes} {x : α} {y : β}
    (hr : Reads r bytes x) (hf : Reads (f x) [] y) : Reads (r >>= f) bytes y := by
  have h := hr.bind hf
  rwa [List.append_nil] at h

/-- A number is read back from its groups, and no byte behind them is taken. -/
theorem reads_number (n : UInt32) : Reads number (Varint.encode n) n := by
  intro rest
  simp only [number, Varint.decode_encode_append, List.drop_left]

/-- A block of bytes of known length is read back. -/
theorem reads_block (bytes : Bytes) : Reads (block bytes.length) bytes bytes := by
  intro rest
  simp [block]

/-- Bytes that are expected are passed over where they stand. -/
theorem reads_expect (bytes : Bytes) : Reads (expect bytes) bytes () := by
  apply (reads_block bytes).bind_nil
  rw [if_pos rfl]
  exact reads_pure ()

/-- A number of fixed width is read back if it fits the width. -/
theorem reads_word {width n : Nat} (hn : n < 256 ^ width) :
    Reads (word width) (Bytes.littleEndian width n) n := by
  have hblock := reads_block (Bytes.littleEndian width n)
  rw [Bytes.length_littleEndian] at hblock
  apply hblock.bind_nil
  rw [Bytes.ofLittleEndian_littleEndian, Nat.mod_eq_of_lt hn]
  exact reads_pure n

/-- Bytes with their length in front are read back, if the length has 32 bits. -/
theorem reads_sized (bytes : Bytes) (h : bytes.length < 2 ^ 32) :
    Reads sized (Varint.encodeCount bytes.length ++ bytes) bytes := by
  apply (reads_number _).bind
  rw [UInt32.toNat_ofNat_of_lt' h]
  exact reads_block bytes

/-- A list takes a byte at least for each member. -/
theorem length_le_length_flatMap {bytes : ι → Bytes} {xs : List ι} (hne : ∀ x ∈ xs, bytes x ≠ []) :
    xs.length ≤ (xs.flatMap bytes).length := by
  induction xs with
  | nil => exact Nat.zero_le _
  | cons x xs ih =>
      have hx := List.length_pos_of_ne_nil (hne x List.mem_cons_self)
      have hxs := ih fun y hy => hne y (List.mem_cons_of_mem _ hy)
      simp only [List.flatMap_cons, List.length_append, List.length_cons]
      omega

/-- A part is no longer than the whole, so a bound on a section is one on all its parts. -/
theorem length_le_of_mem (bytes : ι → Bytes) {xs : List ι} {x : ι} (h : x ∈ xs) :
    (bytes x).length ≤ (xs.flatMap bytes).length := by
  rw [List.flatMap_def]
  exact (List.sublist_flatten_of_mem (List.mem_map_of_mem h)).length_le

/-- Parts that are read back one by one are read back as a list of known length. -/
theorem reads_times {r : Reader α} {value : ι → α} {bytes : ι → Bytes} {xs : List ι}
    (h : ∀ x ∈ xs, Reads r (bytes x) (value x)) :
    Reads (times r xs.length) (xs.flatMap bytes) (xs.map value) := by
  induction xs with
  | nil => exact reads_pure []
  | cons x xs ih =>
      have hxs := ih fun y hy => h y (List.mem_cons_of_mem _ hy)
      rw [List.flatMap_cons]
      exact (h x List.mem_cons_self).bind (hxs.bind_nil (reads_pure _))

/-- A list is read back if its members are. Each of them takes a byte at least, so there are not
more of them than the count can tell, and none is longer than the list. -/
theorem reads_counted {r : Reader α} {value : ι → α} {bytes : ι → Bytes} (xs : List ι)
    (h : ∀ x ∈ xs, (bytes x).length < 2 ^ 32 → Reads r (bytes x) (value x))
    (hne : ∀ x ∈ xs, bytes x ≠ [])
    (hlen : (Varint.encodeCount xs.length ++ xs.flatMap bytes).length < 2 ^ 32) :
    Reads (counted r) (Varint.encodeCount xs.length ++ xs.flatMap bytes) (xs.map value) := by
  rw [List.length_append] at hlen
  -- the count is not greater than the bytes are many, so it is written as it is
  have hcount : xs.length ≤ (xs.flatMap bytes).length := length_le_length_flatMap hne
  apply (reads_number _).bind
  rw [UInt32.toNat_ofNat_of_lt' (by rw [UInt32.size]; omega)]
  apply reads_times
  intro x hx
  have hle := length_le_of_mem bytes hx
  exact h x hx (by omega)

/-- The same for a list of the values that are read. -/
theorem reads_counted_self {r : Reader α} {bytes : α → Bytes} {xs : List α}
    (h : ∀ x ∈ xs, (bytes x).length < 2 ^ 32 → Reads r (bytes x) x) (hne : ∀ x ∈ xs, bytes x ≠ [])
    (hlen : (Varint.encodeCount xs.length ++ xs.flatMap bytes).length < 2 ^ 32) :
    Reads (counted r) (Varint.encodeCount xs.length ++ xs.flatMap bytes) xs := by
  have hcounted : Reads (counted r) _ (xs.map id) := reads_counted xs h hne hlen
  rwa [List.map_id] at hcounted

/-- A part that takes exactly a known number of bytes is read back inside these bytes. -/
theorem reads_enclosed {r : Reader α} {bytes : Bytes} {x : α} (h : Reads r bytes x) :
    Reads (enclosed bytes.length r) bytes x := by
  apply (reads_block bytes).bind_nil
  have hall := h []
  rw [List.append_nil] at hall
  rw [hall]
  exact reads_pure x

end Reader

/-! ### Sections -/

/-- The bytes of a string give the string. -/
theorem Utf8.decode?_encode (s : String) : decode? (encode s) = some s := by
  rw [decode?, toByteArray_encode, String.fromUTF8?, dif_pos s.isValidUTF8]
  rfl

namespace StringTable

/-- The bytes of a string, behind their count. -/
def stringBytes (s : String) : Bytes := Varint.encodeCount (Utf8.encode s).length ++ Utf8.encode s

/-- A string behind the count of its bytes. -/
def stringReader : Reader String := do
  let bytes ← Reader.sized
  match Utf8.decode? bytes with
  | none => failure
  | some s => pure s

/-- A section of strings is their count and then one string after another. -/
theorem toBytes_eq (t : StringTable) :
    t.toBytes =
      Varint.encodeCount t.strings.toList.length ++ t.strings.toList.flatMap stringBytes :=
  rfl

/-- A string that is short enough for its length to be written is read back. -/
theorem reads_stringBytes {s : String} (h : (stringBytes s).length < 2 ^ 32) :
    stringReader.Reads (stringBytes s) s := by
  rw [stringBytes, List.length_append] at h
  have hsized := Reader.reads_sized (Utf8.encode s) (by omega)
  apply hsized.bind_nil
  rw [Utf8.decode?_encode]
  exact Reader.reads_pure s

/-- A section of strings is read back. -/
theorem reads_toBytes (t : StringTable) (h : t.toBytes.length < 2 ^ 32) :
    (Reader.counted stringReader).Reads t.toBytes t.strings.toList := by
  rw [toBytes_eq] at h ⊢
  apply Reader.reads_counted_self _ _ h
  · intro s _ hs
    exact reads_stringBytes hs
  · intro s _
    exact List.append_ne_nil_of_left_ne_nil (Varint.encode_ne_nil _) _

end StringTable

namespace BlobStore

variable {s : BlobStore}

/-- In the pool, a span has as many bytes as it says. -/
theorem InPool.length_slice (h : s.InPool) {span : Span} (hspan : span ∈ s.spans) :
    (s.slice span).length = span.length.toNat := by
  have hle := h span hspan
  rw [byteCount_eq] at hle
  rw [slice_eq, List.length_take, List.length_drop]
  omega

/-- A section of blobs is read back, if the spans of the blobs lie in the pool. -/
theorem reads_toBytes (h : s.InPool) (hlen : s.toBytes.length < 2 ^ 32) :
    (Reader.counted Reader.sized).Reads s.toBytes s.blobs := by
  apply Reader.reads_counted s.spans.toList _ _ hlen
  · intro span hspan _
    have hslice := h.length_slice (Array.mem_toList_iff.mp hspan)
    have hsized := Reader.reads_sized (s.slice span) (hslice ▸ span.length.toNat_lt)
    rwa [hslice, Varint.encodeCount, UInt32.ofNat_toNat] at hsized
  · intro span _
    exact List.append_ne_nil_of_left_ne_nil (Varint.encode_ne_nil _) _

end BlobStore

namespace DependencyTable

/-- A module: its blob, and what it imports. -/
def entryReader : Reader DependencyEntry := do
  let blob ← Reader.number
  let deps ← Reader.counted Reader.number
  return ⟨blob, deps⟩

/-- The dependencies of a module are read back. -/
theorem reads_entryBytes {e : DependencyEntry} (h : (entryBytes e).length < 2 ^ 32) :
    entryReader.Reads (entryBytes e) e := by
  rw [entryBytes, List.append_assoc] at h ⊢
  rw [List.length_append] at h
  have hdeps : (Reader.counted Reader.number).Reads
      (Varint.encodeCount e.deps.length ++ e.deps.flatMap Varint.encode) e.deps :=
    Reader.reads_counted_self (fun d _ _ => Reader.reads_number d)
      (fun d _ => Varint.encode_ne_nil d) (by omega)
  apply (Reader.reads_number e.blob).bind
  exact hdeps.bind_nil (Reader.reads_pure _)

/-- A section of dependencies is read back. -/
theorem reads_toBytes (t : DependencyTable) (h : t.toBytes.length < 2 ^ 32) :
    (Reader.counted entryReader).Reads t.toBytes t.entries.toList := by
  apply Reader.reads_counted_self _ _ h
  · intro e _ he
    exact reads_entryBytes he
  · intro e _
    rw [entryBytes, List.append_assoc]
    exact List.append_ne_nil_of_left_ne_nil (Varint.encode_ne_nil _) _

end DependencyTable

/-! ### Containers -/

namespace Container

/-- What a reader of a container learns. -/
structure Contents where
  /-- The switches for the loader. -/
  flags : UInt16
  /-- The strings, in the order of their ids. -/
  strings : List String
  /-- The blobs, in the order of their ids. -/
  blobs : List Bytes
  /-- The modules with their imports, in the order of their ids. -/
  modules : List DependencyEntry
  /-- The bytes of the instructions. -/
  code : Bytes
  deriving DecidableEq, Repr

/-- What is in a container. -/
def contents (c : Container) : Contents :=
  ⟨c.flags, c.strings.strings.toList, c.blobs.blobs, c.dependencies.entries.toList, c.code⟩

/-- Read a container. The header tells the length of each section. -/
def reader : Reader Contents := do
  Reader.expect magic
  Reader.expect (Bytes.littleEndian 2 version)
  let flags ← Reader.word 2
  let stringsLength ← Reader.word 4
  let blobsLength ← Reader.word 4
  let modulesLength ← Reader.word 4
  let codeLength ← Reader.word 4
  let strings ← Reader.enclosed stringsLength (Reader.counted StringTable.stringReader)
  let blobs ← Reader.enclosed blobsLength (Reader.counted Reader.sized)
  let modules ← Reader.enclosed modulesLength (Reader.counted DependencyTable.entryReader)
  let code ← Reader.block codeLength
  return ⟨UInt16.ofNat flags, strings, blobs, modules, code⟩

/-- The contents of a container with these bytes, and no others behind them. -/
def read? (bytes : Bytes) : Option Contents :=
  match reader bytes with
  | some (x, []) => some x
  | _ => none

/-- Something that can be done to a container. -/
inductive Edit where
  /-- Add a string, if it is new. -/
  | intern (s : String)
  /-- Add a blob, if there is room for it. -/
  | addBlob (code : Bytes)
  /-- Add a module. -/
  | addModule (blob : UInt32) (deps : List UInt32)
  /-- Add an instruction. -/
  | push (x : Instruction)
  /-- Set the flags. -/
  | setFlags (flags : UInt16)

/-- The container after an edit. -/
def edit (c : Container) : Edit → Container
  | .intern s => { c with strings := (c.strings.intern s).1 }
  | .addBlob code =>
    match c.blobs.add? code with
    | none => c
    | some (blobs, _) => { c with blobs }
  | .addModule blob deps => { c with dependencies := (c.dependencies.add blob deps).1 }
  | .push x => c.push x
  | .setFlags flags => { c with flags }

/-- The container was made from the empty one by edits. -/
def Built (c : Container) : Prop := ∃ edits : List Edit, c = edits.foldl edit empty

/-- An edit keeps the spans of the blobs in the pool. -/
theorem inPool_edit {c : Container} (h : c.blobs.InPool) (x : Edit) : (c.edit x).blobs.InPool := by
  cases x with
  | addBlob code =>
      rw [edit]
      split
      · exact h
      · next hadded => exact h.add? hadded
  | intern s => exact h
  | addModule blob deps => exact h
  | push x => exact h
  | setFlags flags => exact h

/-- In a container that was built by edits, the spans of the blobs lie in the pool. -/
theorem Built.inPool {c : Container} (h : c.Built) : c.blobs.InPool := by
  obtain ⟨edits, rfl⟩ := h
  refine List.foldlRecOn (motive := fun c => c.blobs.InPool) edits edit ?_ ?_
  · intro span hspan
    simp [empty, BlobStore.empty] at hspan
  · intro c hc x _
    exact inPool_edit hc x

/-- The bytes of a container, field by field and section by section. Bracketed to the right, so that
one reader after another takes its part off the front. -/
theorem toBytes_eq (c : Container) :
    c.toBytes =
    magic ++ (Bytes.littleEndian 2 version ++ (Bytes.littleEndian 2 c.flags.toNat ++
      (Bytes.littleEndian 4 c.strings.toBytes.length ++
        (Bytes.littleEndian 4 c.blobs.toBytes.length ++
        (Bytes.littleEndian 4 c.dependencies.toBytes.length ++
          (Bytes.littleEndian 4 c.code.length ++
          (c.strings.toBytes ++ (c.blobs.toBytes ++ (c.dependencies.toBytes ++ c.code))))))))) := by
  simp [toBytes, header, sections]

/-- The reader gives what is in a container, if no section is too long for the header. -/
theorem reads_toBytes {c : Container} (hpool : c.blobs.InPool)
    (hshort : ∀ bytes ∈ c.sections, bytes.length < 2 ^ 32) : reader.Reads c.toBytes c.contents := by
  simp only [sections, List.forall_mem_cons, List.not_mem_nil, false_imp_iff, implies_true,
    and_true] at hshort
  obtain ⟨hstrings, hblobs, hmodules, hcode⟩ := hshort
  have hflags : c.flags.toNat < 256 ^ 2 := c.flags.toNat_lt
  rw [toBytes_eq]
  apply (Reader.reads_expect magic).bind
  apply (Reader.reads_expect _).bind
  apply (Reader.reads_word hflags).bind
  apply (Reader.reads_word hstrings).bind
  apply (Reader.reads_word hblobs).bind
  apply (Reader.reads_word hmodules).bind
  apply (Reader.reads_word hcode).bind
  apply (Reader.reads_enclosed (c.strings.reads_toBytes hstrings)).bind
  apply (Reader.reads_enclosed (BlobStore.reads_toBytes hpool hblobs)).bind
  apply (Reader.reads_enclosed (c.dependencies.reads_toBytes hmodules)).bind
  apply (Reader.reads_block c.code).bind_nil
  rw [UInt16.ofNat_toNat]
  exact Reader.reads_pure c.contents

/-- The reader gives back what is in a container. -/
theorem read?_toBytes {c : Container} (hc : c.Built)
    (hshort : ∀ bytes ∈ c.sections, bytes.length < 2 ^ 32) : read? c.toBytes = some c.contents := by
  have hread := reads_toBytes hc.inPool hshort []
  rw [List.append_nil] at hread
  rw [read?, hread]

/-- **A container loses nothing.** Let two containers be made from the empty one by adding strings,
blobs, modules and instructions and by setting flags, and let none of their sections be too long for
its length in the header.

A reader that follows the header, the counts and the lengths finds in the bytes of a container its
flags, its strings, its blobs, its modules with their imports, and the bytes of its instructions. So
two containers with the same bytes have the same of all of these. -/
theorem loses_nothing {a b : Container} (ha : a.Built) (hb : b.Built)
    (hshort : ∀ bytes ∈ a.sections ++ b.sections, bytes.length < 2 ^ 32) :
    (read? a.toBytes = some
      ⟨a.flags, a.strings.strings.toList, a.blobs.blobs, a.dependencies.entries.toList, a.code⟩) ∧
    (a.toBytes = b.toBytes → a.flags = b.flags ∧ a.strings.strings = b.strings.strings ∧
      a.blobs.blobs = b.blobs.blobs ∧ a.dependencies.entries = b.dependencies.entries ∧
      a.code = b.code) := by
  rw [List.forall_mem_append] at hshort
  have hreadA := read?_toBytes ha hshort.1
  have hreadB := read?_toBytes hb hshort.2
  refine ⟨hreadA, ?_⟩
  intro h
  rw [h, hreadB] at hreadA
  have hsame : b.contents = a.contents := Option.some.inj hreadA
  simp only [contents, Contents.mk.injEq, Array.toList_inj] at hsame
  obtain ⟨hflags, hstrings, hblobs, hmodules, hcode⟩ := hsame
  exact ⟨hflags.symm, hstrings.symm, hblobs.symm, hmodules.symm, hcode.symm⟩

/-- Edits with empty and repeated strings, empty blobs, and numbers of several bytes. -/
def sampleEdits : List Edit :=
  [.setFlags 0x0102, .intern "main", .intern "", .intern "é", .intern "main", .addBlob [],
    .addBlob (List.replicate 200 65), .addBlob [0xFF, 0], .addModule 300 [],
    .addModule 1 [0, 70000, 0], .push (.create 128 (.module 1)), .push .finish]

/-- The container that `sampleEdits` make. -/
def sample : Container := sampleEdits.foldl edit empty

/-- A container with an empty string, an empty blob, a count of two bytes and a repeated dependency
is read back. -/
theorem sample_loses_nothing : sample.Built ∧ (∀ bytes ∈ sample.sections, bytes.length < 2 ^ 32) ∧
    read? sample.toBytes = some ⟨0x0102, ["main", "", "é"], [[], List.replicate 200 65, [0xFF, 0]],
      [⟨300, []⟩, ⟨1, [0, 70000, 0]⟩], [0x10, 0x80, 1, 1, 1, 0xFF]⟩ := by
  have hbuilt : sample.Built := ⟨sampleEdits, rfl⟩
  have hshort : ∀ bytes ∈ sample.sections, bytes.length < 2 ^ 32 := by decide +kernel
  have hshort' : ∀ bytes ∈ sample.sections ++ sample.sections, bytes.length < 2 ^ 32 :=
    List.forall_mem_append.mpr ⟨hshort, hshort⟩
  refine ⟨hbuilt, hshort, (loses_nothing hbuilt hbuilt hshort').1.trans ?_⟩
  decide +kernel

end Container

end ShaderPack
