import ShaderPack.Container.Basic
import Mathlib.Tactic.Ring

/-!
# Instruction streams read back

Reading the bytes of a stream gives the stream (`decodeAll_encodeAll`). The parts are that a number
is read back with whatever follows it left alone (`Varint.decode_encode_append`), and then an
instruction (`decodeOne_encode`).
-/

namespace ShaderPack

namespace Varint

/-- Whatever group may come next, a last byte fits and a byte with its high bit set leaves room for
another. -/
theorem groupFits_of_lt {used n : Nat} (hused : used ≤ 4) (hn : n * 128 ^ used < 2 ^ 32) (b : UInt8)
    (hb : b.toNat % 128 = n % 128) : groupFits used b = true := by
  unfold groupFits
  rw [hb]
  by_cases h4 : used = 4
  · subst h4
    have : n < 16 := by omega
    simp only [BEq.rfl, Bool.true_and, Bool.or_eq_true, decide_eq_true_eq]
    omega
  · have : used < 4 := by omega
    simp [this]

/-- Reading goes on from any group: the groups of `n` add `n * 128 ^ used` to the value. -/
theorem decodeFrom_encodeNat_append (n used value : Nat) (rest : Bytes) (hused : used ≤ 4)
    (hn : n * 128 ^ used < 2 ^ 32) :
    decodeFrom used value (encodeNat n ++ rest) =
      (some (UInt32.ofNat (value + n * 128 ^ used)), used + (encodeNat n).length) := by
  induction n using Nat.strongRecOn generalizing used value with
  | ind n ih =>
      rw [encodeNat]
      split
      · next hlt =>
        have hbyte : (UInt8.ofNat n).toNat = n := by
          rw [UInt8.toNat_ofNat']
          omega
        have hfits := groupFits_of_lt hused hn (UInt8.ofNat n) (by rw [hbyte])
        rw [List.cons_append, decodeFrom, hfits, hbyte, Nat.mod_eq_of_lt hlt]
        simp [hlt]
      · next hge =>
        have hbyte : (UInt8.ofNat (n % 128 + 128)).toNat = n % 128 + 128 := by
          rw [UInt8.toNat_ofNat']
          omega
        have hfits := groupFits_of_lt hused hn (UInt8.ofNat (n % 128 + 128)) (by rw [hbyte]; omega)
        -- a number of two groups or more cannot start in the fifth
        have hused4 : used < 4 := by
          by_contra h4
          have : used = 4 := by omega
          subst this
          omega
        have hsplit : n * 128 ^ used = n % 128 * 128 ^ used + n / 128 * 128 ^ (used + 1) := by
          conv_lhs => rw [← Nat.mod_add_div n 128]
          ring
        have hrest : n / 128 * 128 ^ (used + 1) < 2 ^ 32 := by omega
        have hlow : (n % 128 + 128) % 128 = n % 128 := by omega
        rw [List.cons_append, decodeFrom, hfits, hbyte, hlow, if_pos rfl, if_neg (by omega),
          ih (n / 128) (by omega) _ _ (by omega) hrest, List.length_cons, hsplit]
        simp only [Prod.mk.injEq]
        exact ⟨by rw [Nat.add_assoc, Nat.pow_eq], by omega⟩

/-- A number is read back, and what follows it is left alone. -/
theorem decode_encode_append (n : UInt32) (rest : Bytes) :
    decode (encode n ++ rest) = (some n, (encode n).length) := by
  have hn : n.toNat * 128 ^ 0 < 2 ^ 32 := by simpa using n.toNat_lt
  rw [decode, encode, decodeFrom_encodeNat_append n.toNat 0 0 rest (Nat.zero_le 4) hn]
  simp

end Varint

namespace Instruction

/-- Whether code comes from a blob or a module can be told from the tag. -/
theorem ofTag?_tag (source : CodeSource) :
    CodeSource.ofTag? source.tag source.id = some source := by
  cases source <;> rfl

/-- The arguments of `create` are read back. -/
theorem decodeCreate_append (pos : Nat) (handle : UInt32) (source : CodeSource) (rest : Bytes) :
    decodeCreate pos (Varint.encode handle ++ source.tag :: Varint.encode source.id ++ rest) =
      .ok (create handle source,
        (Varint.encode handle).length + 1 + (Varint.encode source.id).length) := by
  have hhandle := Varint.decode_encode_append handle (source.tag :: Varint.encode source.id ++ rest)
  have hid := Varint.decode_encode_append source.id rest
  rw [List.append_assoc, decodeCreate, hhandle]
  simp only [List.drop_left, List.cons_append, hid, ofTag?_tag]

/-- An instruction is read back; what is taken after its first byte is the rest of its bytes. -/
theorem decodeOne_encode (pos : Nat) (x : Instruction) (rest : Bytes) :
    ∃ opcode args, encode x = opcode :: args ∧
      decodeOne pos opcode (args ++ rest) = .ok (x, args.length) := by
  cases x with
  | create handle source =>
      refine ⟨createOpcode, _, rfl, ?_⟩
      rw [decodeOne, if_pos rfl, decodeCreate_append]
      simp only [List.length_append, List.length_cons]
      congr 2
      omega
  | finish => exact ⟨finishOpcode, [], rfl, rfl⟩

/-- Instructions are read back one after another, behind those that have been read. -/
theorem decodeFrom_encodeAll (pos : Nat) (done xs : List Instruction) :
    decodeFrom pos done (encodeAll xs) = .ok (done.reverse ++ xs) := by
  induction xs generalizing pos done with
  | nil =>
      rw [show encodeAll [] = [] from rfl, decodeFrom, List.append_nil]
  | cons x xs ih =>
      obtain ⟨opcode, args, hx, hread⟩ := decodeOne_encode pos x (encodeAll xs)
      have hall : encodeAll (x :: xs) = opcode :: (args ++ encodeAll xs) := by
        rw [encodeAll, List.flatMap_cons, hx]
        rfl
      rw [hall, decodeFrom, hread]
      simp only [List.drop_left]
      rw [ih]
      simp

/-- A stream is read back from its bytes. -/
theorem decodeAll_encodeAll (xs : List Instruction) : decodeAll (encodeAll xs) = .ok xs := by
  rw [decodeAll, decodeFrom_encodeAll]
  rfl

end Instruction

/-- The instructions of a container are read back from its instruction section. -/
theorem Container.decodeAll_code (c : Container) :
    Instruction.decodeAll c.code = .ok c.instructions.toList :=
  Instruction.decodeAll_encodeAll _

end ShaderPack
