import ShaderPack.Proofs.SectionLength
import Mathlib.Data.List.Forall2

/-!
# The grammar of instruction streams

Which bytes are an instruction stream can be said without a reader. A number is at most five groups
of seven bits (`Varint.Spells`), an instruction is one byte or four fields (`Instruction.Spells`),
and a stream is a row of instructions (`Instruction.Parses`). Numbers may be padded, so many byte
strings spell the same stream.

The reader takes exactly these bytes (`Instruction.accepts_grammar`). The two halves are that what
it takes off the front is spelled (`Varint.spells_of_decode`, `Instruction.spells_of_decodeOne`) and
that what is spelled is taken off the front, whatever follows it (`Varint.Spells.decode`,
`Instruction.Spells.decodeOne`).

A stream that is cut off inside an instruction is never taken for a shorter one
(`Instruction.truncation_noticed`). All bytes of a number but the last have their high bit set, so a
number that is cut off has no end (`Varint.Spells.decode_cut`).
-/

namespace ShaderPack

/-! ### Numbers -/

namespace Varint

/-- The number that groups of seven bits make, lowest group first. High bits do not count. -/
def groupsValue : Bytes → Nat
  | [] => 0
  | b :: rest => b.toNat % 128 + 128 * groupsValue rest

/-- The bytes spell the number: there are five of them at most, all but the last have their high bit
set, and their groups make the number. Groups of zeros may be padded on. -/
structure Spells (bytes : Bytes) (n : UInt32) : Prop where
  length_le : bytes.length ≤ 5
  ends : ∃ front last, bytes = front ++ [last] ∧ (∀ b ∈ front, 128 ≤ b.toNat) ∧ last.toNat < 128
  value : groupsValue bytes = n.toNat

/-- Each group has seven bits. -/
theorem groupsValue_lt (bytes : Bytes) : groupsValue bytes < 128 ^ bytes.length := by
  induction bytes with
  | nil => simp [groupsValue]
  | cons b rest ih =>
      have hgroup : b.toNat % 128 < 128 := Nat.mod_lt _ (by omega)
      rw [groupsValue, List.length_cons, Nat.pow_succ']
      omega

/-- Behind some groups, the next one adds its bits and the others theirs. -/
theorem groupsValue_cons_mul (b : UInt8) (rest : Bytes) (used : Nat) :
    groupsValue (b :: rest) * 128 ^ used =
      b.toNat % 128 * 128 ^ used + groupsValue rest * 128 ^ (used + 1) := by
  rw [groupsValue]
  ring

/-- A number that is spelled out is read from any group on, and what follows it is left alone. -/
theorem decodeFrom_append {front : Bytes} {last : UInt8} (hfront : ∀ b ∈ front, 128 ≤ b.toNat)
    (hlast : last.toNat < 128) (used value : Nat) (rest : Bytes) (hlen : used + front.length ≤ 4)
    (hvalue : groupsValue (front ++ [last]) * 128 ^ used < 2 ^ 32) :
    decodeFrom used value (front ++ last :: rest) =
      (some (UInt32.ofNat (value + groupsValue (front ++ [last]) * 128 ^ used)),
        used + (front.length + 1)) := by
  -- on the groups before the last; those read go into `used` and `value`
  induction front generalizing used value with
  | nil =>
      have hfits : groupFits used last :=
        groupFits_of_lt (Nat.le_of_add_right_le hlen) hvalue last (by simp [groupsValue])
      rw [List.nil_append, decodeFrom, if_pos hfits, if_pos hlast]
      simp [groupsValue]
  | cons b front ih =>
      rw [List.forall_mem_cons] at hfront
      rw [List.length_cons] at hlen
      have hfits : groupFits used b := groupFits_of_lt (by omega) hvalue b (by simp [groupsValue])
      rw [List.cons_append, groupsValue_cons_mul] at hvalue
      have hnext :=
        ih hfront.2 (used + 1) (value + b.toNat % 128 * 128 ^ used) (by omega) (by omega)
      rw [List.cons_append, decodeFrom, if_pos hfits, if_neg (by omega), Nat.pow_eq, hnext,
        List.cons_append, groupsValue_cons_mul, List.length_cons]
      simp only [Prod.mk.injEq]
      exact ⟨by rw [Nat.add_assoc], by omega⟩

/-- A further group leaves the value within as many groups. -/
theorem add_group_lt {used value : Nat} (hvalue : value < 128 ^ used) (b : UInt8) :
    value + b.toNat % 128 * 128 ^ used < 128 ^ (used + 1) :=
  calc value + b.toNat % 128 * 128 ^ used
      < 128 ^ used + b.toNat % 128 * 128 ^ used := Nat.add_lt_add_right hvalue _
    _ = (b.toNat % 128 + 1) * 128 ^ used := by ring
    _ ≤ 128 * 128 ^ used := Nat.mul_le_mul_right _ (Nat.mod_lt _ (by omega))
    _ = 128 ^ (used + 1) := Nat.pow_succ'.symm

/-- Four groups always fit, and of the fifth its lowest four bits. -/
theorem groupFits_iff {used : Nat} {b : UInt8} :
    groupFits used b = true ↔ used < 4 ∨ used = 4 ∧ b.toNat % 128 < 16 := by
  simp only [groupFits, Bool.or_eq_true, decide_eq_true_eq, Bool.and_eq_true, beq_iff_eq]

/-- A group that fits leaves the value within 32 bits. -/
theorem lt_of_groupFits {used value : Nat} {b : UInt8} (hvalue : value < 128 ^ used)
    (h : groupFits used b) : used ≤ 4 ∧ value + b.toNat % 128 * 128 ^ used < 2 ^ 32 := by
  obtain hused | ⟨rfl, hgroup⟩ := groupFits_iff.mp h
  · have hsum := add_group_lt hvalue b
    have hpow : 128 ^ (used + 1) ≤ 128 ^ 4 := Nat.pow_le_pow_right (by omega) hused
    omega
  · omega

/-- What is read from some group on is spelled out at the front of the bytes. -/
theorem eq_append_of_decodeFrom {bytes : Bytes} {used value k : Nat} {n : UInt32}
    (hvalue : value < 128 ^ used) (h : decodeFrom used value bytes = (some n, k)) :
    ∃ front last rest, bytes = front ++ last :: rest ∧ (∀ b ∈ front, 128 ≤ b.toNat) ∧
    last.toNat < 128 ∧
      k = used + (front.length + 1) ∧ k ≤ 5 ∧
      n.toNat = value + groupsValue (front ++ [last]) * 128 ^ used := by
  -- `hvalue` is what every group read keeps; with it the sum below does not wrap around
  induction bytes generalizing used value with
  | nil => cases h
  | cons b bytes ih =>
      rw [decodeFrom] at h
      split at h
      · next hfits =>
        obtain ⟨hused, hsum⟩ := lt_of_groupFits hvalue hfits
        split at h
        · next hlast =>
          obtain ⟨hn, rfl⟩ := Prod.mk.inj h
          refine ⟨[], b, bytes, rfl, by simp, hlast, rfl, by omega, ?_⟩
          rw [← Option.some.inj hn, Nat.pow_eq, UInt32.toNat_ofNat_of_lt' hsum]
          simp [groupsValue]
        · next hhigh =>
          obtain ⟨front, last, rest, rfl, hfront, hlast, rfl, hk, hn⟩ :=
            ih (add_group_lt hvalue b) h
          refine ⟨b :: front, last, rest, rfl, ?_, hlast, ?_, hk, ?_⟩
          · exact List.forall_mem_cons.mpr ⟨by omega, hfront⟩
          · rw [List.length_cons]
            omega
          · rw [hn, List.cons_append, groupsValue_cons_mul, Nat.add_assoc]
      · cases h

/-- Bytes with their high bit set have no end. -/
theorem decodeFrom_of_high {bytes : Bytes} (hhigh : ∀ b ∈ bytes, 128 ≤ b.toNat) (used value : Nat)
    (hlen : used + bytes.length ≤ 4) :
    decodeFrom used value bytes = (none, used + bytes.length) := by
  induction bytes generalizing used value with
  | nil => rfl
  | cons b bytes ih =>
      rw [List.forall_mem_cons] at hhigh
      rw [List.length_cons] at hlen ⊢
      have hfits : groupFits used b = true := by
        simp only [groupFits, Bool.or_eq_true, decide_eq_true_eq]
        omega
      rw [decodeFrom, if_pos hfits, if_neg (by omega), ih hhigh.2 _ _ (by omega)]
      congr 1
      omega

/-- A number that is spelled out is read, and what follows it is left alone. -/
theorem Spells.decode {bytes : Bytes} {n : UInt32} (h : Spells bytes n) (rest : Bytes) :
    decode (bytes ++ rest) = (some n, bytes.length) := by
  obtain ⟨front, last, rfl, hfront, hlast⟩ := h.ends
  have hlen := h.length_le
  have hlt := n.toNat_lt
  rw [List.length_append, List.length_singleton] at hlen
  have hread :=
    decodeFrom_append hfront hlast 0 0 rest (by omega) (by rw [h.value]; simpa using hlt)
  rw [h.value, Nat.zero_add, Nat.zero_add, Nat.pow_zero, Nat.mul_one, UInt32.ofNat_toNat] at hread
  rw [Varint.decode, List.append_assoc, List.singleton_append, hread, List.length_append,
    List.length_singleton]

/-- What is read as a number is spelled out at the front. -/
theorem spells_of_decode {bytes : Bytes} {n : UInt32} {k : Nat} (h : decode bytes = (some n, k)) :
    ∃ v rest, bytes = v ++ rest ∧ v.length = k ∧ Spells v n := by
  obtain ⟨front, last, rest, rfl, hfront, hlast, rfl, hk, hn⟩ :=
    eq_append_of_decodeFrom (by simp) h
  refine ⟨front ++ [last], rest, by simp, by simp, ?_, ⟨front, last, rfl, hfront, hlast⟩, ?_⟩
  · rw [List.length_append, List.length_singleton]
    omega
  · rw [hn]
    simp

/-- A number that is cut off is not read, and all that there is of it is taken. -/
theorem Spells.decode_cut {bytes cut : Bytes} {n : UInt32} (h : Spells bytes n)
    (hcut : cut <+: bytes) (hne : cut ≠ bytes) : Varint.decode cut = (none, cut.length) := by
  obtain ⟨front, last, rfl, hfront, -⟩ := h.ends
  have hlen := h.length_le
  rw [List.length_append, List.length_singleton] at hlen
  have hbegins : cut <+: front := (List.prefix_concat_iff.mp hcut).resolve_left hne
  have hle := hbegins.length_le
  have hread := decodeFrom_of_high (fun b hb => hfront b (hbegins.subset hb)) 0 0 (by omega)
  rwa [Nat.zero_add] at hread

/-- The bytes that a number is written in spell it. -/
theorem spells_encode (n : UInt32) : Spells (encode n) n := by
  obtain ⟨v, rest, hv, hlen, hspells⟩ := spells_of_decode (decode_encode_append n [])
  rw [List.append_nil] at hv
  have hrest : rest = [] := by
    rw [hv, List.length_append] at hlen
    exact List.length_eq_zero_iff.mp (by omega)
  rwa [hv, hrest, List.append_nil]

/-- No spelling of a number is shorter than the one that is written. -/
theorem Spells.length_encode_le {bytes : Bytes} {n : UInt32} (h : Spells bytes n) :
    (encode n).length ≤ bytes.length := by
  obtain ⟨front, last, rfl, -, -⟩ := h.ends
  have hlt := groupsValue_lt (front ++ [last])
  rw [h.value, List.length_append, List.length_singleton] at hlt
  rw [List.length_append, List.length_singleton]
  exact length_encodeNat_le front.length n.toNat hlt

end Varint

/-! ### Instructions -/

namespace Instruction

/-- The bytes spell the instruction: `0xFF` alone, or `0x10`, a handle, the kind of the source and
its id. -/
inductive Spells : Bytes → Instruction → Prop
  | finish : Spells [0xFF] finish
  | blob {v w : Bytes} {handle id : UInt32} (hv : Varint.Spells v handle)
      (hw : Varint.Spells w id) : Spells (0x10 :: (v ++ 0 :: w)) (create handle (.blob id))
  | module {v w : Bytes} {handle id : UInt32} (hv : Varint.Spells v handle)
      (hw : Varint.Spells w id) : Spells (0x10 :: (v ++ 1 :: w)) (create handle (.module id))

/-- The bytes are these parts, one behind the other, and each part spells the instruction in its
place. -/
def Parses (bytes : Bytes) (parts : List Bytes) (xs : List Instruction) : Prop :=
  parts.flatten = bytes ∧ List.Forall₂ Spells parts xs

variable {part : Bytes} {x : Instruction} {parts : List Bytes} {xs : List Instruction}

/-- Tag and id tell where code comes from, and nothing else does. -/
theorem ofTag?_eq_some {tag : UInt8} {id : UInt32} {source : CodeSource} :
    CodeSource.ofTag? tag id = some source ↔ tag = source.tag ∧ id = source.id := by
  unfold CodeSource.ofTag?
  split
  · next h => cases source <;> simp [h, CodeSource.tag, CodeSource.id]
  · next h₀ =>
    split
    · next h => cases source <;> simp [h, CodeSource.tag, CodeSource.id]
    · next h₁ => cases source <;> simp [h₀, h₁, CodeSource.tag]

/-- An instruction that creates a shader is spelled by its opcode, the handle, the tag and the
id. -/
theorem spells_create {v w : Bytes} {handle : UInt32} {source : CodeSource}
    (hv : Varint.Spells v handle) (hw : Varint.Spells w source.id) :
    Spells (createOpcode :: (v ++ source.tag :: w)) (create handle source) := by
  cases source with
  | blob id => exact .blob hv hw
  | module id => exact .module hv hw

/-- A spelled instruction is `finish`, or the four fields of a `create`. -/
theorem Spells.fields (h : Spells part x) :
    (part = [finishOpcode] ∧ x = Instruction.finish) ∨
    ∃ v w handle source, part = createOpcode :: (v ++ CodeSource.tag source :: w) ∧
    x = create handle source ∧
      Varint.Spells v handle ∧ Varint.Spells w source.id := by
  cases h with
  | finish => exact .inl ⟨rfl, rfl⟩
  | blob hv hw => exact .inr ⟨_, _, _, .blob _, rfl, rfl, hv, hw⟩
  | module hv hw => exact .inr ⟨_, _, _, .module _, rfl, rfl, hv, hw⟩

/-- What is written for an instruction spells it. -/
theorem spells_encode (x : Instruction) : Spells (encode x) x := by
  cases x with
  | create handle source =>
      exact spells_create (Varint.spells_encode handle) (Varint.spells_encode source.id)
  | finish => exact .finish

/-- No spelling of an instruction is shorter than the one that is written. -/
theorem Spells.length_encode_le (h : Spells part x) : (encode x).length ≤ part.length := by
  obtain ⟨rfl, rfl⟩ | ⟨v, w, handle, source, rfl, rfl, hv, hw⟩ := h.fields
  · exact Nat.le_refl 1
  · have hhandle := hv.length_encode_le
    have hid := hw.length_encode_le
    simp only [encode, List.length_cons, List.length_append]
    omega

/-- A spelled instruction is read, and what follows it is left alone. -/
theorem Spells.decodeOne (h : Spells part x) (pos : Nat) : ∃ opcode args, part = opcode :: args ∧
    ∀ rest, decodeOne pos opcode (args ++ rest) = .ok (x, args.length) := by
  obtain ⟨rfl, rfl⟩ | ⟨v, w, handle, source, rfl, rfl, hv, hw⟩ := h.fields
  · exact ⟨finishOpcode, [], rfl, fun rest => rfl⟩
  · refine ⟨createOpcode, _, rfl, fun rest => ?_⟩
    rw [Instruction.decodeOne, if_pos rfl, List.append_assoc, List.cons_append, decodeCreate,
      hv.decode]
    simp only [List.drop_left, hw.decode, ofTag?_tag, List.length_append, List.length_cons]
    congr 2
    omega

/-- What is read as an instruction that creates a shader spells it, and is as long as the reader
says. -/
theorem spells_of_decodeCreate {pos : Nat} {bytes : Bytes} {used : Nat}
    (h : decodeCreate pos bytes = .ok (x, used)) :
    ∃ args rest, bytes = args ++ rest ∧ args.length = used ∧ Spells (createOpcode :: args) x := by
  unfold decodeCreate at h
  dsimp only at h
  split at h
  · cases h
  · next handle hhandle =>
    obtain ⟨v, tail, rfl, -, hv⟩ := Varint.spells_of_decode (Prod.ext hhandle rfl)
    simp only [hv.decode, List.drop_left] at h
    split at h
    · cases h
    · next tag bytes =>
      split at h
      · cases h
      · next id hid =>
        obtain ⟨w, rest, rfl, -, hw⟩ := Varint.spells_of_decode (Prod.ext hid rfl)
        simp only [hw.decode] at h
        split at h
        · cases h
        · next source hsource =>
          obtain ⟨rfl, rfl⟩ := ofTag?_eq_some.mp hsource
          obtain ⟨rfl, rfl⟩ := Prod.mk.inj (Except.ok.inj h)
          refine ⟨v ++ source.tag :: w, rest, by simp, ?_, spells_create hv hw⟩
          rw [List.length_append, List.length_cons]
          omega

/-- What is read as an instruction is spelled out at the front. -/
theorem spells_of_decodeOne {pos : Nat} {opcode : UInt8} {bytes : Bytes} {used : Nat}
    (h : decodeOne pos opcode bytes = .ok (x, used)) :
    ∃ args rest, bytes = args ++ rest ∧ args.length = used ∧ Spells (opcode :: args) x := by
  unfold decodeOne at h
  split at h
  · next hopcode =>
    subst hopcode
    exact spells_of_decodeCreate h
  · split at h
    · next hopcode =>
      obtain ⟨rfl, rfl⟩ := Prod.mk.inj (Except.ok.inj h)
      exact ⟨[], bytes, rfl, rfl, hopcode ▸ .finish⟩
    · cases h

/-- There is one way to take an instruction off the front. -/
theorem Spells.unique {part' rest rest' : Bytes} {x' : Instruction} (h : Spells part x)
    (h' : Spells part' x') (heq : part ++ rest = part' ++ rest') :
    part = part' ∧ x = x' ∧ rest = rest' := by
  obtain ⟨opcode, args, rfl, hread⟩ := h.decodeOne 0
  obtain ⟨opcode', args', rfl, hread'⟩ := h'.decodeOne 0
  obtain ⟨rfl, hargs⟩ := List.cons.inj heq
  have hsame :=
    (hread rest).symm.trans ((congrArg (Instruction.decodeOne 0 opcode) hargs).trans (hread' rest'))
  obtain ⟨rfl, hlen⟩ := Prod.mk.inj (Except.ok.inj hsame)
  obtain ⟨rfl, rfl⟩ := List.append_inj hargs hlen
  exact ⟨rfl, rfl, rfl⟩

/-! ### Streams -/

/-- Reading goes over spelled instructions one by one, up to whatever follows them. -/
theorem decodeFrom_flatten_append (h : List.Forall₂ Spells parts xs) (pos : Nat)
    (done : List Instruction) (rest : Bytes) :
    decodeFrom pos done (parts.flatten ++ rest) =
      decodeFrom (pos + parts.flatten.length) (xs.reverse ++ done) rest := by
  induction h generalizing pos done with
  | nil => rfl
  | cons hpart _ ih =>
      obtain ⟨opcode, args, rfl, hread⟩ := hpart.decodeOne pos
      rw [List.flatten_cons, List.append_assoc, List.cons_append, decodeFrom, hread]
      simp only [List.drop_left]
      rw [ih]
      simp only [List.length_append, List.length_cons, List.reverse_cons, List.append_assoc,
        List.singleton_append]
      congr 1
      omega

/-- Every part has its instruction. -/
theorem exists_forall₂_iff :
    (∃ xs, List.Forall₂ Spells parts xs) ↔ ∀ part ∈ parts, ∃ x, Spells part x := by
  induction parts with
  | nil => simp
  | cons part parts ih =>
      rw [List.forall_mem_cons, ← ih]
      constructor
      · rintro ⟨_, hall⟩
        cases hall with
        | cons hx hxs => exact ⟨⟨_, hx⟩, _, hxs⟩
      · rintro ⟨⟨x, hx⟩, xs, hxs⟩
        exact ⟨x :: xs, .cons hx hxs⟩

/-- A stream that is made of spellings is read as what they spell. -/
theorem Parses.decodeAll {bytes : Bytes} (h : Parses bytes parts xs) :
    decodeAll bytes = .ok xs := by
  obtain ⟨rfl, hall⟩ := h
  have hread := decodeFrom_flatten_append hall 0 [] []
  rw [List.append_nil, decodeFrom.eq_1, List.append_nil, List.reverse_reverse] at hread
  exact hread

/-- A stream that is read is made of spellings of what is read. -/
theorem parses_of_decodeFrom {pos : Nat} {done : List Instruction} {bytes : Bytes}
    {ys : List Instruction} (h : decodeFrom pos done bytes = .ok ys) :
    ∃ parts xs, ys = done.reverse ++ xs ∧ Parses bytes parts xs := by
  fun_induction decodeFrom pos done bytes with
  | case1 =>
      cases h
      exact ⟨[], [], by simp, rfl, .nil⟩
  | case2 => cases h
  | case3 pos done opcode rest x used hread ih =>
      obtain ⟨args, rest, rfl, rfl, hspells⟩ := spells_of_decodeOne hread
      rw [List.drop_left] at ih h
      obtain ⟨parts, xs, rfl, hflat, hall⟩ := ih h
      refine ⟨(opcode :: args) :: parts, x :: xs, by simp, ?_, .cons hspells hall⟩
      rw [List.flatten_cons, hflat, List.cons_append]

/-- The same from the beginning of the stream. -/
theorem parses_of_decodeAll {bytes : Bytes} (h : decodeAll bytes = .ok xs) :
    ∃ parts, Parses bytes parts xs := by
  obtain ⟨parts, xs, rfl, hparses⟩ := parses_of_decodeFrom h
  exact ⟨parts, hparses⟩

/-- There is one way to parse a byte string. -/
theorem Parses.unique {bytes : Bytes} {parts' : List Bytes} {xs' : List Instruction}
    (h : Parses bytes parts xs) (h' : Parses bytes parts' xs') : parts = parts' ∧ xs = xs' := by
  obtain ⟨hflat, hall⟩ := h
  obtain ⟨hflat', hall'⟩ := h'
  have heq : parts.flatten = parts'.flatten := hflat.trans hflat'.symm
  clear hflat hflat'
  -- so that the two parses end together
  have hne : ∀ {part : Bytes} {x : Instruction}, Spells part x → part ≠ [] := by
    rintro _ _ hpart rfl
    cases hpart
  induction hall generalizing parts' xs' with
  | nil =>
      cases hall' with
      | nil => exact ⟨rfl, rfl⟩
      | cons hpart' _ => exact absurd (List.append_eq_nil_iff.mp heq.symm).1 (hne hpart')
  | cons hpart _ ih =>
      cases hall' with
      | nil => exact absurd (List.append_eq_nil_iff.mp heq).1 (hne hpart)
      | cons hpart' hall' =>
          obtain ⟨rfl, rfl, hrest⟩ := hpart.unique hpart' heq
          obtain ⟨rfl, rfl⟩ := ih hall' hrest
          exact ⟨rfl, rfl⟩

/-- What is written for instructions is made of their spellings. -/
theorem parses_encodeAll (xs : List Instruction) : Parses (encodeAll xs) (xs.map encode) xs := by
  refine ⟨(List.flatMap_def).symm, ?_⟩
  induction xs with
  | nil => exact .nil
  | cons x xs ih => exact .cons (spells_encode x) ih

/-- No spelling of instructions is shorter than what is written for them. -/
theorem Parses.length_encodeAll_le {bytes : Bytes} (h : Parses bytes parts xs) :
    (encodeAll xs).length ≤ bytes.length := by
  obtain ⟨rfl, hall⟩ := h
  induction hall with
  | nil => exact Nat.le_refl 0
  | cons hpart _ ih =>
      have hlen := hpart.length_encode_le
      rw [encodeAll] at ih ⊢
      rw [List.flatMap_cons, List.flatten_cons, List.length_append, List.length_append]
      omega

/-- **The reader takes exactly the grammar.** Reading succeeds if and only if the bytes can be cut
into parts that each spell an instruction: `0xFF`, or `0x10`, a number, `0` or `1`, and a number,
where a number is at most five groups, padded or not, of a value below `2 ^ 32`.

There is one way to cut them, and the instructions of the parts are what is read. Written again they
take no more bytes, and these are read as the same instructions. -/
theorem accepts_grammar (bytes : Bytes) :
    ((∃ xs, decodeAll bytes = .ok xs) ↔
      ∃ parts : List Bytes, parts.flatten = bytes ∧ ∀ part ∈ parts, ∃ x, Spells part x) ∧
    ∀ xs, decodeAll bytes = .ok xs →
      (∃ parts, Parses bytes parts xs ∧ ∀ parts' xs', Parses bytes parts' xs' → parts' = parts ∧
        xs' = xs) ∧
      (encodeAll xs).length ≤ bytes.length ∧ decodeAll (encodeAll xs) = .ok xs := by
  refine ⟨⟨?_, ?_⟩, ?_⟩
  · rintro ⟨xs, hread⟩
    obtain ⟨parts, hflat, hall⟩ := parses_of_decodeAll hread
    exact ⟨parts, hflat, exists_forall₂_iff.mp ⟨xs, hall⟩⟩
  · rintro ⟨parts, hflat, hparts⟩
    obtain ⟨xs, hall⟩ := exists_forall₂_iff.mpr hparts
    exact ⟨xs, Parses.decodeAll ⟨hflat, hall⟩⟩
  · intro xs hread
    obtain ⟨parts, hparses⟩ := parses_of_decodeAll hread
    exact ⟨⟨parts, hparses, fun parts' xs' h => h.unique hparses⟩, hparses.length_encodeAll_le,
      decodeAll_encodeAll xs⟩

/-- A stream with a padded handle, a padded id, and more behind a `finish`. -/
def paddedStream : Bytes :=
  [0x10, 0x80, 0x00, 1, 0x85, 0x80, 0x00, 0xFF, 0x10, 0x7F, 0, 0xFF, 0xFF, 0xFF, 0xFF, 0x0F]

/-- A stream with needless groups and with instructions behind an end is accepted and read in one
way; written again it is shorter. -/
theorem paddedStream_accepted :
    decodeAll paddedStream = .ok [create 0 (.module 5), finish, create 127 (.blob 0xFFFFFFFF)] ∧
      (∃ parts,
        Parses paddedStream parts [create 0 (.module 5), finish, create 127 (.blob 0xFFFFFFFF)] ∧
        ∀ parts' xs', Parses paddedStream parts' xs' →
          parts' = parts ∧ xs' = [create 0 (.module 5), finish, create 127 (.blob 0xFFFFFFFF)]) ∧
      encodeAll [create 0 (.module 5), finish, create 127 (.blob 0xFFFFFFFF)] =
        [0x10, 0, 1, 5, 0xFF, 0x10, 0x7F, 0, 0xFF, 0xFF, 0xFF, 0xFF, 0x0F] := by
  have hread :
      decodeAll paddedStream =
        .ok [create 0 (.module 5), finish, create 127 (.blob 0xFFFFFFFF)] := by
    decide +kernel
  exact ⟨hread, ((accepts_grammar paddedStream).2 _ hread).1, by decide +kernel⟩

/-! ### Streams that are cut off -/

/-- The errors of bytes that end too early, at position `n`. -/
def endsAt (n : Nat) : List DecodeError := [.truncatedHandle n, .truncatedTag n, .truncatedId n]

/-- A beginning of two lists ends inside the first one, or behind it. -/
theorem prefix_append_cases {α : Type} {cut a b : List α} (h : cut <+: a ++ b) :
    (cut <+: a ∧ cut ≠ a) ∨ ∃ rest, cut = a ++ rest ∧ rest <+: b := by
  obtain hle | ⟨rest, rfl⟩ := List.prefix_or_prefix_of_prefix h (List.prefix_append a b)
  · by_cases heq : cut = a
    · exact .inr ⟨[], by simpa using heq, List.nil_prefix⟩
    · exact .inl ⟨hle, heq⟩
  · exact .inr ⟨rest, rfl, (List.prefix_append_right_inj a).mp h⟩

/-- The fields of a `create` that are cut off: the cut is in the handle, behind it, or in the id. -/
theorem decodeCreate_cut {v w cut : Bytes} {handle id : UInt32} {tag : UInt8}
    (hv : Varint.Spells v handle) (hw : Varint.Spells w id) (hcut : cut <+: v ++ tag :: w)
    (hne : cut ≠ v ++ tag :: w) (pos : Nat) :
    ∃ e ∈ endsAt (pos + cut.length), decodeCreate pos cut = .error e := by
  obtain ⟨hbegins, hshort⟩ | ⟨tail, rfl, htail⟩ := prefix_append_cases hcut
  · refine ⟨.truncatedHandle (pos + cut.length), by simp [endsAt], ?_⟩
    rw [decodeCreate, hv.decode_cut hbegins hshort]
  · rw [decodeCreate, hv.decode]
    simp only [List.drop_left]
    obtain rfl | ⟨rest, rfl, hrest⟩ := List.prefix_cons_iff.mp htail
    · exact ⟨_, by simp [endsAt], rfl⟩
    · have hshort : rest ≠ w := fun heq => hne (by rw [heq])
      have hlen : (v ++ tag :: rest).length = v.length + 1 + rest.length := by
        rw [List.length_append, List.length_cons]
        omega
      simp only [hw.decode_cut hrest hshort, hlen]
      exact ⟨_, by simp [endsAt], rfl⟩

/-- An instruction that is cut off behind its first byte is not read. -/
theorem Spells.decodeOne_cut (h : Spells part x) {opcode : UInt8} {args : Bytes}
    (hcut : opcode :: args <+: part) (hne : opcode :: args ≠ part) (pos : Nat) :
    ∃ e ∈ endsAt (pos + (opcode :: args).length), Instruction.decodeOne pos opcode args =
      .error e := by
  obtain ⟨rfl, rfl⟩ | ⟨v, w, handle, source, rfl, rfl, hv, hw⟩ := h.fields
  · obtain ⟨rfl, hargs⟩ := List.cons_prefix_cons.mp hcut
    exact absurd (by rw [List.prefix_nil.mp hargs]) hne
  · obtain ⟨rfl, hargs⟩ := List.cons_prefix_cons.mp hcut
    have hshort : args ≠ v ++ source.tag :: w := fun heq => hne (by rw [heq])
    rw [Instruction.decodeOne, if_pos rfl, List.length_cons, Nat.add_comm args.length,
      ← Nat.add_assoc]
    exact decodeCreate_cut hv hw hargs hshort (pos + 1)

/-- A stream ends between two instructions, or reading fails where it ends. -/
theorem decodeFrom_cut (h : List.Forall₂ Spells parts xs) {cut : Bytes}
    (hcut : cut <+: parts.flatten) (pos : Nat) (done : List Instruction) :
    (∃ k, cut = (parts.take k).flatten) ∨
      ∃ e ∈ endsAt (pos + cut.length), decodeFrom pos done cut = .error e := by
  induction h generalizing cut pos done with
  | nil => exact .inl ⟨0, List.prefix_nil.mp hcut⟩
  | @cons part x parts xs hpart _ ih =>
      -- the cut is in this instruction, or somewhere behind it
      obtain ⟨hbegins, hshort⟩ | ⟨rest, rfl, hrest⟩ := prefix_append_cases hcut
      · cases cut with
        | nil => exact .inl ⟨0, rfl⟩
        | cons opcode args =>
            obtain ⟨e, he, hread⟩ := hpart.decodeOne_cut hbegins hshort pos
            exact .inr ⟨e, he, by rw [decodeFrom, hread]⟩
      · obtain ⟨k, rfl⟩ | ⟨e, he, hread⟩ := ih hrest (pos + part.length) (x :: done)
        · exact .inl ⟨k + 1, rfl⟩
        · have hskip := decodeFrom_flatten_append (.cons hpart .nil) pos done rest
          rw [List.flatten_cons, List.flatten_nil, List.append_nil] at hskip
          refine .inr ⟨e, ?_, hskip.trans hread⟩
          rwa [List.length_append, ← Nat.add_assoc]

/-- The instruction section of a container to which these instructions were added, one after the
other. -/
def written (xs : List Instruction) : Bytes := (xs.foldl Container.push Container.empty).code

/-- Instructions that are pushed are written behind those that are there. -/
theorem code_foldl_push (xs : List Instruction) (c : Container) :
    (xs.foldl Container.push c).code = c.code ++ encodeAll xs := by
  induction xs generalizing c with
  | nil => simp [encodeAll]
  | cons x xs ih =>
      rw [List.foldl_cons, ih]
      simp [Container.code, Container.push, encodeAll]

/-- So the bytes of a stream are those of its instructions. -/
theorem written_eq (xs : List Instruction) : written xs = encodeAll xs :=
  code_foldl_push xs Container.empty

/-- **Streams are read back, and a cut is noticed.** The bytes that are written when instructions
are added one by one are read as these instructions. A beginning of these bytes that ends between
two instructions is read as the instructions before. One that ends anywhere else is refused, and the
error says that the bytes end too early and where they end. -/
theorem truncation_noticed (xs : List Instruction) :
    decodeAll (written xs) = .ok xs ∧
    ∀ cut, cut <+: written xs → cut ≠ written xs →
      (∀ ys, ys <+: xs → cut = written ys → decodeAll cut = .ok ys) ∧
      ((∀ ys, ys <+: xs → cut ≠ written ys) →
        ∃ e ∈ endsAt cut.length, decodeAll cut = .error e) := by
  simp only [written_eq]
  refine ⟨decodeAll_encodeAll xs, fun cut hcut _ => ⟨?_, ?_⟩⟩
  · rintro ys - rfl
    exact decodeAll_encodeAll ys
  · intro hinside
    obtain ⟨hflat, hall⟩ := parses_encodeAll xs
    obtain ⟨k, rfl⟩ | ⟨e, he, hread⟩ := decodeFrom_cut hall (hflat ▸ hcut) 0 []
    · refine absurd ?_ (hinside (xs.take k) (List.take_prefix k xs))
      rw [encodeAll, List.flatMap_def, List.map_take]
    · rw [Nat.zero_add] at he
      exact ⟨e, he, hread⟩

/-- A cut between two instructions gives the first. A cut inside a handle is an error at the end of
the bytes. -/
theorem cut_handle_noticed :
    decodeAll [0x10, 0xAC, 0x02, 1, 1] = .ok [create 300 (.module 1)] ∧
      ∃ e ∈ endsAt 2, decodeAll [0x10, 0xAC] = .error e := by
  obtain ⟨-, hcuts⟩ := truncation_noticed [create 300 (.module 1), finish]
  have hwritten : written [create 300 (.module 1), finish] = [0x10, 0xAC, 0x02, 1, 1, 0xFF] := by
    decide +kernel
  constructor
  · refine (hcuts [0x10, 0xAC, 0x02, 1, 1] ?_ ?_).1 _ ?_ ?_ <;> decide +kernel
  · refine (hcuts [0x10, 0xAC] ?_ ?_).2 fun ys hys => ?_
    · rw [hwritten]
      decide
    · rw [hwritten]
      decide
    · have hall : ∀ ys ∈ [create 300 (.module 1), finish].inits, [0x10, 0xAC] ≠ written ys := by
        decide +kernel
      exact hall ys (List.mem_inits _ _ |>.mpr hys)

end Instruction

end ShaderPack
