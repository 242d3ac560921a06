import Mathlib.Algebra.BigOperators.Group.Finset.Basic
import Mathlib.Algebra.BigOperators.Ring.Finset
import ShaderPack.Proofs.StreamGrammar

/-!
# Numbers bit by bit

Numbers are written and read with shifts and masks on 32-bit words. `Varint.append` cuts groups of
seven bits off a word, and `Varint.readAt` puts groups together with a shift and an or. What these
do to bits is what `Varint.encode` and `Varint.decodeAt` do to numbers (`append_eq`, `readAt_eq`).
The groups do not overlap, so an or of them is a sum; the fifth group is checked, so no bit is
shifted out.

What a reader accepts is then said by positions alone (`Varint.Groups`): one to five bytes, of which
all but the last have their high bit set, and whose groups add up to a number below `2 ^ 32`. The
reader accepts exactly that, it takes at most six bytes of anything else, and it never leaves the
bytes (`varint_exact`).
-/

namespace ShaderPack

namespace Varint

/-! ### Words -/

/-- Append the groups of a word to bytes, lowest group first. -/
def append (out : Bytes) (n : UInt32) : Bytes :=
  let group := (n &&& 0x7F).toUInt8
  if n >>> 7 = 0 then out ++ [group] else append (out ++ [group ||| 0x80]) (n >>> 7)
termination_by n.toNat
decreasing_by
  rename_i h
  rw [← UInt32.toNat_inj, UInt32.toNat_shiftRight] at h
  rw [UInt32.toNat_shiftRight]
  simp only [UInt32.reduceToNat, Nat.reduceMod, Nat.shiftRight_eq_div_pow] at h ⊢
  omega

/-- Go on reading at a position, where `value` has the bits read so far and the next group goes
`shift` bits up. Gives the number, if it ends as it should, and the position behind what was
taken. -/
def readFrom (bytes : Bytes) (pos : Nat) (value shift : UInt32) : Option UInt32 × Nat :=
  match _h : bytes[pos]? with
  | none => (none, pos)
  | some b =>
    if 32 ≤ shift then (none, pos + 1)
    else if shift = 28 ∧ b &&& 0x70 ≠ 0 then (none, pos + 1)
    else if b &&& 0x80 = 0 then (some (value ||| ((b &&& 0x7F).toUInt32 <<< shift)), pos + 1)
    else readFrom bytes (pos + 1) (value ||| ((b &&& 0x7F).toUInt32 <<< shift)) (shift + 7)
termination_by bytes.length - pos
decreasing_by
  have hpos := (List.getElem?_eq_some_iff.mp _h).1
  omega

/-- Read the number at a position. -/
def readAt (bytes : Bytes) (pos : Nat) : Option UInt32 × Nat := readFrom bytes pos 0 0

/-- Reading on behind the last byte fails there. -/
theorem readFrom_of_none {bytes : Bytes} {pos : Nat} (h : bytes[pos]? = none)
    (value shift : UInt32) :
    readFrom bytes pos value shift = (none, pos) := by
  rw [readFrom]
  split
  · rfl
  · next h' => simp [h] at h'

/-- Reading on at a byte: it is refused if its group does not fit, it is the last one if its high
bit is not set, and otherwise more groups follow. -/
theorem readFrom_of_some {bytes : Bytes} {pos : Nat} {b : UInt8} (h : bytes[pos]? = some b)
    (value shift : UInt32) :
    readFrom bytes pos value shift =
      if 32 ≤ shift ∨ shift = 28 ∧ b &&& 0x70 ≠ 0 then (none, pos + 1)
      else if b &&& 0x80 = 0 then (some (value ||| ((b &&& 0x7F).toUInt32 <<< shift)), pos + 1)
      else readFrom bytes (pos + 1) (value ||| ((b &&& 0x7F).toUInt32 <<< shift)) (shift + 7) := by
  rw [readFrom, ite_or]
  split
  · next h' => simp [h] at h'
  · next b' h' =>
    obtain rfl : b = b' := Option.some.inj (h.symm.trans h')
    rfl

/-! ### Masks -/

/-- Shifting out a group divides by 128. -/
theorem toNat_shiftRight_seven (n : UInt32) : (n >>> 7).toNat = n.toNat / 128 := by
  rw [UInt32.toNat_shiftRight]
  exact Nat.shiftRight_eq_div_pow _ 7

/-- The lowest group is the rest of a division by 128. -/
theorem toUInt8_and_mask (n : UInt32) : (n &&& 0x7F).toUInt8 = UInt8.ofNat (n.toNat % 128) := by
  rw [← UInt8.toNat_inj, UInt32.toNat_toUInt8, UInt32.toNat_and, UInt8.toNat_ofNat']
  exact congrArg (· % 256) (Nat.and_two_pow_sub_one_eq_mod n.toNat 7)

/-- Setting the high bit of a group adds 128. -/
theorem or_high {n : Nat} (h : n < 128) : UInt8.ofNat n ||| 0x80 = UInt8.ofNat (n + 128) := by
  have hor : n ||| 128 = 128 + n := by
    rw [Nat.or_comm]
    exact (Nat.two_pow_add_eq_or_of_lt (i := 7) h 1).symm
  rw [← UInt8.toNat_inj, UInt8.toNat_or, UInt8.toNat_ofNat', UInt8.toNat_ofNat',
    Nat.mod_eq_of_lt (by omega)]
  rw [show (0x80 : UInt8).toNat = 128 from rfl, hor]
  omega

/-- The bits of a byte: the group, the high bit, and the bits that have no room in the fifth
group. -/
theorem byte_bits (b : UInt8) :
    (b &&& 0x7F).toNat = b.toNat % 128 ∧ (b &&& 0x80 = 0 ↔ b.toNat < 128) ∧
    (b &&& 0x70 ≠ 0 ↔ 16 ≤ b.toNat % 128) := by
  have hall : ∀ n : Fin 256, n.val &&& 127 = n.val % 128 ∧ (n.val &&& 128 = 0 ↔ n.val < 128) ∧
      (n.val &&& 112 ≠ 0 ↔ 16 ≤ n.val % 128) := by decide +kernel
  simp only [ne_eq, ← UInt8.toNat_inj, UInt8.toNat_and]
  exact hall ⟨b.toNat, b.toNat_lt⟩

/-! ### Words and numbers -/

/-- Cutting groups off a word writes the groups of its number. -/
theorem append_eq (out : Bytes) (n : UInt32) : append out n = out ++ encode n := by
  induction hn : n.toNat using Nat.strong_induction_on generalizing out n with
  | _ m ih =>
      subst hn
      have hrest := toNat_shiftRight_seven n
      have hlast : n >>> 7 = 0 ↔ n.toNat < 128 := by
        rw [← UInt32.toNat_inj, hrest, show (0 : UInt32).toNat = 0 from rfl]
        omega
      rw [append, toUInt8_and_mask, encode, encodeNat]
      by_cases hlt : n.toNat < 128
      · rw [if_pos (hlast.mpr hlt), if_pos hlt, Nat.mod_eq_of_lt hlt]
      · have hnext :=
          ih (n >>> 7).toNat (by omega) (out ++ [UInt8.ofNat (n.toNat % 128 + 128)]) (n >>> 7) rfl
        rw [encode, hrest] at hnext
        rw [if_neg (hlast.not.mpr hlt), if_neg hlt, or_high (Nat.mod_lt _ (by omega)), hnext,
          List.append_assoc, List.singleton_append]

/-- A group that fits is put in above the bits that are there, so the or of the two is their sum. -/
theorem toNat_or_group {value shift : UInt32} {used : Nat} {b : UInt8}
    (hvalue : value.toNat < 128 ^ used) (hshift : shift.toNat = 7 * used)
    (hfits : groupFits used b = true) :
    (value ||| ((b &&& 0x7F).toUInt32 <<< shift)).toNat =
      value.toNat + b.toNat % 128 * 128 ^ used := by
  obtain ⟨hused, hsum⟩ := lt_of_groupFits hvalue hfits
  have hpow : 128 ^ used = 2 ^ (7 * used) := by rw [Nat.pow_mul]
  rw [hpow] at hvalue hsum ⊢
  have hgroup : ((b &&& 0x7F).toUInt32 <<< shift).toNat = 2 ^ (7 * used) * (b.toNat % 128) := by
    rw [UInt32.toNat_shiftLeft, UInt8.toNat_toUInt32, (byte_bits b).1, hshift,
      Nat.mod_eq_of_lt (by omega : 7 * used < 32), Nat.shiftLeft_eq, Nat.mod_eq_of_lt (by omega),
      Nat.mul_comm]
  rw [UInt32.toNat_or, hgroup, Nat.or_comm, ← Nat.two_pow_add_eq_or_of_lt hvalue, Nat.mul_comm,
    Nat.add_comm]

/-- The reader refuses a byte just when it does not fit as the next group. -/
theorem refused_iff {shift : UInt32} {used : Nat} (hused : used ≤ 5)
    (hshift : shift.toNat = 7 * used) (b : UInt8) :
    (32 ≤ shift ∨ shift = 28 ∧ b &&& 0x70 ≠ 0) ↔ ¬ groupFits used b = true := by
  have hwide : 32 ≤ shift ↔ used = 5 := by
    rw [UInt32.le_iff_toNat_le, hshift, show (32 : UInt32).toNat = 32 from rfl]
    omega
  have hfifth : shift = 28 ↔ used = 4 := by
    rw [← UInt32.toNat_inj, hshift, show (28 : UInt32).toNat = 28 from rfl]
    omega
  rw [hwide, hfifth, (byte_bits b).2.2, groupFits_iff]
  omega

/-- Putting groups together in a word reads their number, from any group on. -/
theorem readFrom_eq (bytes : Bytes) (start : Nat) {value shift : UInt32} {used : Nat}
    (hused : used ≤ 5) (hvalue : value.toNat < 128 ^ used) (hshift : shift.toNat = 7 * used) :
    readFrom bytes (start + used) value shift =
      ((decodeFrom used value.toNat (bytes.drop (start + used))).1,
        start + (decodeFrom used value.toNat (bytes.drop (start + used))).2) := by
  -- on the groups that may still come
  induction hn : 6 - used generalizing used value shift with
  | zero => omega
  | succ n ih =>
      cases hbyte : bytes[start + used]? with
      | none =>
          rw [readFrom_of_none hbyte, List.drop_of_length_le (List.getElem?_eq_none_iff.mp hbyte)]
          rfl
      | some b =>
          obtain ⟨hlt, rfl⟩ := List.getElem?_eq_some_iff.mp hbyte
          rw [readFrom_of_some hbyte, List.drop_eq_getElem_cons hlt, decodeFrom]
          generalize bytes[start + used] = b
          have hrefused := refused_iff hused hshift b
          by_cases hfits : groupFits used b = true
          · obtain ⟨hused', -⟩ := lt_of_groupFits hvalue hfits
            have hor := toNat_or_group hvalue hshift hfits
            rw [if_neg (hrefused.not.mpr (not_not.mpr hfits)), if_pos hfits, Nat.pow_eq, ← hor]
            simp only [(byte_bits b).2.1]
            by_cases hend : b.toNat < 128
            · rw [if_pos hend, if_pos hend, UInt32.ofNat_toNat, Nat.add_assoc]
            · have hvalue' := add_group_lt hvalue b
              rw [← hor] at hvalue'
              have hshift' : (shift + 7).toNat = 7 * (used + 1) := by
                rw [UInt32.toNat_add, hshift, show (7 : UInt32).toNat = 7 from rfl]
                omega
              rw [if_neg hend, if_neg hend]
              exact ih (by omega) hvalue' hshift' (by omega)
          · rw [if_pos (hrefused.mpr hfits), if_neg hfits, Nat.add_assoc]

/-- Reading with shifts gives what reading with numbers gives, at every position. -/
theorem readAt_eq (bytes : Bytes) (pos : Nat) : readAt bytes pos = decodeAt bytes pos :=
  readFrom_eq bytes pos (Nat.zero_le 5) (by decide) rfl

/-! ### Numbers by positions -/

/-- The `k` bytes from a position on are the groups of a number. -/
structure Groups (bytes : Bytes) (pos k : Nat) (n : UInt32) : Prop where
  /-- There is a byte. -/
  one_le : 1 ≤ k
  /-- There are five at most. -/
  le_five : k ≤ 5
  /-- All but the last have their high bit set. -/
  goes_on : ∀ i, i + 1 < k → ∃ b, bytes[pos + i]? = some b ∧ 128 ≤ b.toNat
  /-- The last has not. -/
  ends : ∃ b, bytes[pos + (k - 1)]? = some b ∧ b.toNat < 128
  /-- The groups add up to the number. -/
  sum_eq : ∑ i ∈ Finset.range k, (bytes.getD (pos + i) 0).toNat % 128 * 128 ^ i = n.toNat

/-- The value of groups as a sum over their places. -/
theorem groupsValue_eq_sum (v : Bytes) :
    groupsValue v = ∑ i ∈ Finset.range v.length, (v.getD i 0).toNat % 128 * 128 ^ i := by
  induction v with
  | nil => rfl
  | cons b v ih =>
      have hshift : ∀ i, ((b :: v).getD (i + 1) 0).toNat % 128 * 128 ^ (i + 1) =
          128 * ((v.getD i 0).toNat % 128 * 128 ^ i) := by
        intro i
        rw [List.getD_cons_succ]
        ring
      rw [groupsValue, ih, List.length_cons, Finset.sum_range_succ', Finset.mul_sum]
      simp only [hshift, List.getD_cons_zero, Nat.pow_zero, Nat.mul_one]
      rw [Nat.add_comm]

/-- What stands at a position of the bytes, told from the bytes behind an earlier position. -/
theorem getElem?_add_of_drop {bytes v rest : Bytes} {pos i : Nat} (h : bytes.drop pos = v ++ rest)
    (hi : i < v.length) : bytes[pos + i]? = v[i]? := by
  rw [← List.getElem?_drop, h, List.getElem?_append_left hi]

/-- The sum over the groups at a position of the bytes is the value of these groups. -/
theorem sum_groups {bytes v rest : Bytes} {pos : Nat} (h : bytes.drop pos = v ++ rest) :
    ∑ i ∈ Finset.range v.length, (bytes.getD (pos + i) 0).toNat % 128 * 128 ^ i =
      groupsValue v := by
  rw [groupsValue_eq_sum]
  apply Finset.sum_congr rfl
  intro i hi
  rw [List.getD_eq_getElem?_getD, getElem?_add_of_drop h (Finset.mem_range.mp hi),
    ← List.getD_eq_getElem?_getD]

/-- The groups of a number at a position are a spelling of it at the front of what is there. -/
theorem groups_iff {bytes : Bytes} {pos k : Nat} {n : UInt32} : Groups bytes pos k n ↔
    ∃ v rest, bytes.drop pos = v ++ rest ∧ v.length = k ∧ Spells v n := by
  constructor
  · intro h
    obtain ⟨last, hlast, hlow⟩ := h.ends
    obtain ⟨hlt, rfl⟩ := List.getElem?_eq_some_iff.mp hlast
    have hlt' : k - 1 < (bytes.drop pos).length := by
      rw [List.length_drop]
      omega
    have hsplit : bytes.drop pos = (bytes.drop pos).take (k - 1) ++ [bytes[pos + (k - 1)]] ++
        bytes.drop (pos + k) := by
      have hone := h.one_le
      conv_lhs => rw [← List.take_append_drop (k - 1) (bytes.drop pos)]
      rw [List.append_assoc, List.singleton_append, List.drop_drop, List.drop_eq_getElem_cons hlt,
        Nat.add_assoc, Nat.sub_add_cancel hone]
    have hlength : ((bytes.drop pos).take (k - 1) ++ [bytes[pos + (k - 1)]]).length = k := by
      have hone := h.one_le
      rw [List.length_append, List.length_take_of_le hlt'.le, List.length_singleton,
        Nat.sub_add_cancel hone]
    refine ⟨_, _, hsplit, hlength, hlength.trans_le h.le_five, ⟨_, _, rfl, ?_, hlow⟩, ?_⟩
    · intro b hb
      obtain ⟨i, hi, hget⟩ := List.mem_take_iff_getElem.mp hb
      obtain ⟨b', hb', hhigh⟩ := h.goes_on i (by omega)
      rw [← List.getElem?_drop, List.getElem?_eq_getElem (by omega), hget] at hb'
      rwa [Option.some.inj hb']
    · rw [← sum_groups hsplit, hlength]
      exact h.sum_eq
  · rintro ⟨v, rest, hsplit, rfl, hspells⟩
    obtain ⟨front, last, rfl, hfront, hlast⟩ := hspells.ends
    have hlength : (front ++ [last]).length = front.length + 1 := List.length_append
    refine ⟨by omega, hspells.length_le, ?_, ⟨last, ?_, hlast⟩, ?_⟩
    · intro i hi
      have hi' : i < front.length := by omega
      refine ⟨front[i], ?_, hfront _ (List.getElem_mem hi')⟩
      rw [getElem?_add_of_drop hsplit (by omega), List.getElem?_append_left hi',
        List.getElem?_eq_getElem hi']
    · rw [getElem?_add_of_drop hsplit (by omega), hlength, Nat.add_sub_cancel]
      simp
    · rw [sum_groups hsplit, hspells.value]

/-- A number is read exactly where its groups stand, and the reader stops behind them. -/
theorem decodeAt_eq_some_iff {bytes : Bytes} {pos k : Nat} {n : UInt32} :
    decodeAt bytes pos = (some n, pos + k) ↔ Groups bytes pos k n := by
  rw [groups_iff]
  constructor
  · intro h
    obtain ⟨hvalue, htaken⟩ := Prod.mk.inj h
    exact spells_of_decode (Prod.ext hvalue (Nat.add_left_cancel htaken))
  · rintro ⟨v, rest, hsplit, rfl, hspells⟩
    rw [decodeAt, hsplit, hspells.decode]

/-- At most six bytes are taken of what is not a number, and none that is not there. -/
theorem decodeFrom_none {used value k : Nat} {bytes : Bytes} (hused : used ≤ 5)
    (h : decodeFrom used value bytes = (none, k)) : k ≤ 6 ∧ k ≤ used + bytes.length := by
  induction bytes generalizing used value with
  | nil =>
      obtain ⟨-, rfl⟩ := Prod.mk.inj h
      exact ⟨by omega, Nat.le_refl _⟩
  | cons b bytes ih =>
      rw [decodeFrom] at h
      rw [List.length_cons]
      split at h
      · next hfits =>
        split at h
        · cases h
        · rw [groupFits_iff] at hfits
          obtain ⟨hsix, hlength⟩ := ih (by omega) h
          exact ⟨hsix, by omega⟩
      · obtain ⟨-, rfl⟩ := Prod.mk.inj h
        exact ⟨by omega, by omega⟩

/-- Where no groups stand, nothing is read. At most six bytes are taken, and the reader stays within
the bytes. -/
theorem decodeAt_none {bytes : Bytes} {pos : Nat} (h : ∀ n k, ¬ Groups bytes pos k n) :
    ∃ k ≤ 6, decodeAt bytes pos = (none, pos + k) ∧
    (pos ≤ bytes.length → pos + k ≤ bytes.length) := by
  cases hread : decode (bytes.drop pos) with
  | mk value? k =>
      have hat : decodeAt bytes pos = (value?, pos + k) := by rw [decodeAt, hread]
      cases value? with
      | some n => exact absurd (decodeAt_eq_some_iff.mp hat) (h n k)
      | none =>
          obtain ⟨hsix, hlength⟩ := decodeFrom_none (Nat.zero_le 5) hread
          rw [List.length_drop] at hlength
          exact ⟨k, hsix, hat, fun hpos => by omega⟩

/-- Spellings of one number that have the same length are the same. -/
theorem Spells.eq_of_length {v w : Bytes} {n : UInt32} (hv : Spells v n) (hw : Spells w n)
    (hlength : v.length = w.length) : v = w := by
  obtain ⟨front, last, rfl, hfront, hlast⟩ := hv.ends
  obtain ⟨front', last', rfl, hfront', hlast'⟩ := hw.ends
  have hvalue : groupsValue (front ++ [last]) = groupsValue (front' ++ [last']) :=
    hv.value.trans hw.value.symm
  clear hv hw
  rw [List.length_append, List.length_append, List.length_singleton,
    List.length_singleton] at hlength
  induction front generalizing front' with
  | nil =>
      obtain rfl :=
        List.eq_nil_of_length_eq_zero (show front'.length = 0 by simpa using hlength.symm)
      simp only [List.nil_append, groupsValue, Nat.mul_zero, Nat.add_zero, Nat.mod_eq_of_lt hlast,
        Nat.mod_eq_of_lt hlast', UInt8.toNat_inj] at hvalue
      rw [hvalue]
  | cons b front ih =>
      cases front' with
      | nil => simp at hlength
      | cons b' front' =>
          rw [List.forall_mem_cons] at hfront hfront'
          simp only [List.cons_append, groupsValue] at hvalue
          have hb : b = b' := by
            have hlt := b.toNat_lt
            have hlt' := b'.toNat_lt
            rw [← UInt8.toNat_inj]
            omega
          have hrest := ih hfront.2 front' (by simpa using hlength) hfront'.2 (by omega)
          rw [hb, List.cons_append, List.cons_append, hrest]

/-- **Numbers are read back, and nothing else is read as a number.** A number that is appended to
bytes is read where it was appended, whatever is in front of it and behind it, and the position is
then right behind it. It takes one to five bytes; no other bytes that are read as the number are as
short.

At any position, a number is read from `k` bytes exactly if there are one to five of them, all but
the last have their high bit set, and the groups of seven bits add up to the number. Otherwise
nothing is read, at most six bytes are taken, and the position stays within the bytes if it was.

All this is done with shifts and masks on words of 32 bits. -/
theorem varint_exact :
    (∀ (n : UInt32) (before after : Bytes), decodeAt (append before n ++ after) before.length =
      (some n, (append before n).length)) ∧
    (∀ n : UInt32, 1 ≤ (encode n).length ∧ (encode n).length ≤ 5 ∧
      ∀ bytes pos k, decodeAt bytes pos = (some n, pos + k) →
        (encode n).length ≤ k ∧ (k = (encode n).length → (bytes.drop pos).take k = encode n)) ∧
    (∀ bytes pos k n, decodeAt bytes pos = (some n, pos + k) ↔
      1 ≤ k ∧ k ≤ 5 ∧ (∀ i, i + 1 < k → ∃ b, bytes[pos + i]? = some b ∧ 128 ≤ b.toNat) ∧
        (∃ b, bytes[pos + (k - 1)]? = some b ∧ b.toNat < 128) ∧
        ∑ i ∈ Finset.range k, (bytes.getD (pos + i) 0).toNat % 128 * 128 ^ i = n.toNat) ∧
    (∀ bytes pos, (∀ n k, decodeAt bytes pos ≠ (some n, pos + k)) →
      ∃ k ≤ 6, decodeAt bytes pos = (none, pos + k) ∧
      (pos ≤ bytes.length → pos + k ≤ bytes.length)) ∧
    (∀ before n, append before n = before ++ encode n) ∧
    ∀ bytes pos, readAt bytes pos = decodeAt bytes pos := by
  refine ⟨?_, ?_, ?_, ?_, append_eq, readAt_eq⟩
  · intro n before after
    rw [append_eq, List.append_assoc, decodeAt, List.drop_left, decode_encode_append,
      List.length_append]
  · intro n
    refine ⟨List.length_pos_of_ne_nil (encode_ne_nil n), length_encode_le n, ?_⟩
    intro bytes pos k hread
    obtain ⟨v, rest, hsplit, rfl, hspells⟩ := groups_iff.mp (decodeAt_eq_some_iff.mp hread)
    refine ⟨hspells.length_encode_le, ?_⟩
    intro hlength
    rw [hsplit, List.take_left]
    exact hspells.eq_of_length (spells_encode n) hlength
  · intro bytes pos k n
    rw [decodeAt_eq_some_iff]
    exact ⟨fun h => ⟨h.one_le, h.le_five, h.goes_on, h.ends, h.sum_eq⟩,
      fun ⟨hone, hfive, hgoes, hends, hsum⟩ => ⟨hone, hfive, hgoes, hends, hsum⟩⟩
  · intro bytes pos h
    exact decodeAt_none fun n k hgroups => h n k (decodeAt_eq_some_iff.mpr hgroups)

/-- A number with other bytes around it, a padded spelling of it that is longer, a fifth group
without room and a number without an end. -/
theorem varint_boundaries :
    append [0xFF] 0xFFFFFFFF = [0xFF, 0xFF, 0xFF, 0xFF, 0xFF, 0x0F] ∧
    decodeAt (append [0xFF] 0xFFFFFFFF ++ [0x80]) 1 = (some 0xFFFFFFFF, 6) ∧
    (decodeAt [0x85, 0x80, 0x00] 0 = (some 5, 0 + 3) ∧ (encode 5).length ≤ 3) ∧
    (∃ k ≤ 6, decodeAt [0xFF, 0xFF, 0xFF, 0xFF, 0x1F] 0 = (none, 0 + k) ∧ 0 + k ≤ 5) ∧
    readAt [0x80, 0x80, 0x80, 0x80, 0x80, 0x00] 0 = (none, 6) := by
  obtain ⟨happended, hshortest, -, hother, happend, hbits⟩ := varint_exact
  have hwritten : append [0xFF] 0xFFFFFFFF = [0xFF, 0xFF, 0xFF, 0xFF, 0xFF, 0x0F] := by
    rw [happend]
    decide +kernel
  have hpadded : decodeAt [0x85, 0x80, 0x00] 0 = (some 5, 0 + 3) := by decide +kernel
  have hrefused : decodeAt [0xFF, 0xFF, 0xFF, 0xFF, 0x1F] 0 = (none, 5) := by decide +kernel
  refine ⟨hwritten, ?_, ⟨hpadded, ((hshortest 5).2.2 _ _ _ hpadded).1⟩, ?_, ?_⟩
  · have hread := happended 0xFFFFFFFF [0xFF] [0x80]
    rwa [hwritten] at hread ⊢
  · obtain ⟨k, hk, hread, hin⟩ := hother [0xFF, 0xFF, 0xFF, 0xFF, 0x1F] 0 fun n k h => by
      rw [hrefused] at h
      cases h
    exact ⟨k, hk, hread, hin (by decide)⟩
  · rw [hbits]
    decide +kernel

end Varint

end ShaderPack
