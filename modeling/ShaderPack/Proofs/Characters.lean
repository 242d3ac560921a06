import ShaderPack.Text.Utf8
import Mathlib.Data.List.Basic

/-!
# Characters and their bytes

In the bytes of a text, a byte below 128 is a character of its own. So such a byte cuts a text into
two texts (`IsText.split`), and whatever looks for such bytes only can cut a text without cutting a
character.

* `Utf8.IsText`: the bytes are those of some characters; encoding gives such bytes, and so does a
  file that passes the check (`isText_encode`, `isText_of_isValid`).
* `Utf8.isBoundary`: whether a place lies between two characters. It does if what follows is a text
  (`isBoundary_of_isText`).
-/

namespace ShaderPack

namespace Utf8

/-- The bytes are those of some characters. -/
def IsText (bytes : Bytes) : Prop := ∃ cs, encodeChars cs = bytes

/-- Whether a place in a text lies between two characters: at an end, or in front of a byte that is
not one of the later bytes of a character. -/
def isBoundary (text : Bytes) (i : Nat) : Bool :=
  match text[i]? with
  | none => i == text.length
  | some b => i == 0 || b < 0x80 || 0xC0 ≤ b

variable {x y : Bytes} {b : UInt8}

theorem encodeChars_cons (c : Char) (cs : List Char) :
    encodeChars (c :: cs) = String.utf8EncodeChar c ++ encodeChars cs :=
  List.flatMap_cons

/-- Texts that are put together have their bytes put together. -/
theorem encodeChars_append (cs ds : List Char) :
    encodeChars (cs ++ ds) = encodeChars cs ++ encodeChars ds :=
  List.flatMap_append

theorem isText_nil : IsText [] := ⟨[], rfl⟩

/-- Pieces of text one behind the other are text. -/
theorem IsText.append (hx : IsText x) (hy : IsText y) : IsText (x ++ y) := by
  obtain ⟨cs, rfl⟩ := hx
  obtain ⟨ds, rfl⟩ := hy
  exact ⟨cs ++ ds, encodeChars_append cs ds⟩

/-- The bytes of a string are text. -/
theorem isText_encode (s : String) : IsText (encode s) := ⟨s.toList, rfl⟩

/-- What the check of bytes accepts is text. -/
theorem isText_of_isValid (h : isValid x = true) : IsText x := by
  have hvalid : x.toByteArray.IsValidUTF8 := by
    by_contra hnot
    simp [isValid, decode?, String.fromUTF8?, hnot] at h
  obtain ⟨cs, hcs⟩ := hvalid
  exact ⟨cs, (List.toByteArray_inj.mp hcs).symm⟩

/-- The bytes of a character: one byte below 128, or several bytes from 128 on, of which the first
is no later byte. -/
theorem utf8EncodeChar_cases (c : Char) :
    (∃ b, String.utf8EncodeChar c = [b] ∧ b < 0x80) ∨
      ∃ b rest, String.utf8EncodeChar c = b :: rest ∧ 0xC0 ≤ b ∧ ∀ b' ∈ rest, 0x80 ≤ b' := by
  unfold String.utf8EncodeChar
  generalize c.val.toNat = v
  simp only [UInt8.le_iff_toNat_le, UInt8.lt_iff_toNat_lt]
  split
  · refine .inl ⟨_, rfl, ?_⟩
    simp
    omega
  · right
    split
    · refine ⟨_, _, rfl, ?_, ?_⟩ <;> simp <;> omega
    · split
      · refine ⟨_, _, rfl, ?_, ?_⟩ <;> simp <;> omega
      · refine ⟨_, _, rfl, ?_, ?_⟩ <;> simp <;> omega

/-- A byte below 128 in the bytes of a character is all of them. -/
theorem utf8EncodeChar_of_mem {c : Char} (hmem : b ∈ String.utf8EncodeChar c) (hb : b < 0x80) :
    String.utf8EncodeChar c = [b] := by
  rcases utf8EncodeChar_cases c with ⟨b', hc, -⟩ | ⟨b', rest, hc, hfirst, hlater⟩
  · rw [hc] at hmem
    rw [hc, List.mem_singleton.mp hmem]
  · rw [hc] at hmem
    have hhigh : 0x80 ≤ b := by
      rcases List.mem_cons.mp hmem with rfl | hrest
      · exact UInt8.le_trans (by decide) hfirst
      · exact hlater b hrest
    exact absurd hb (UInt8.not_lt.mpr hhigh)

/-- A byte below 128 is a character. -/
theorem isText_singleton (hb : b < 0x80) : IsText [b] := by
  have hchar : ∀ n : Fin 128, String.utf8EncodeChar (Char.ofNat n) = [UInt8.ofNat n] := by decide
  refine ⟨[Char.ofNat b.toNat], ?_⟩
  rw [encodeChars_cons, hchar ⟨b.toNat, UInt8.lt_iff_toNat_lt.mp hb⟩, UInt8.ofNat_toNat]
  rfl

/-- Bytes below `0x80` are text, one character each. -/
theorem isText_of_forall_lt (h : ∀ b ∈ x, b < 0x80) : IsText x := by
  induction x with
  | nil => exact isText_nil
  | cons b x ih =>
      have hb := isText_singleton (h b List.mem_cons_self)
      exact hb.append (ih fun b' hb' => h b' (List.mem_cons_of_mem _ hb'))

/-- A text does not start with a later byte of a character. -/
theorem IsText.head_cases (h : IsText (b :: y)) : b < 0x80 ∨ 0xC0 ≤ b := by
  obtain ⟨cs, hcs⟩ := h
  cases cs with
  | nil => cases hcs
  | cons c cs =>
      rw [encodeChars_cons] at hcs
      rcases utf8EncodeChar_cases c with ⟨b', hc, hb⟩ | ⟨b', rest, hc, hb, -⟩
      · rw [hc] at hcs
        exact .inl ((List.cons.inj hcs).1 ▸ hb)
      · rw [hc] at hcs
        exact .inr ((List.cons.inj hcs).1 ▸ hb)

/-- **A byte below 128 cuts a text into two texts.** It is a character of its own. -/
theorem IsText.split (h : IsText (x ++ b :: y)) (hb : b < 0x80) : IsText x ∧ IsText y := by
  obtain ⟨cs, hcs⟩ := h
  induction cs generalizing x with
  | nil => simp [encodeChars] at hcs
  | cons c cs ih =>
      rw [encodeChars_cons] at hcs
      have hc : IsText (String.utf8EncodeChar c) := ⟨[c], by simp [encodeChars]⟩
      rcases List.append_eq_append_iff.mp hcs with ⟨x', rfl, htail⟩ | ⟨z, hchar, htail⟩
      · -- the byte comes after the first character
        obtain ⟨hx', hy⟩ := ih htail
        exact ⟨hc.append hx', hy⟩
      · cases z with
        | nil =>
            -- the byte starts the second character
            rw [List.append_nil] at hchar
            obtain ⟨-, hy⟩ := ih (x := []) htail.symm
            exact ⟨hchar ▸ hc, hy⟩
        | cons b' z =>
            -- the byte is in the first character, so it is all of it
            obtain ⟨rfl, hy⟩ := List.cons.inj htail
            have hmem : b ∈ String.utf8EncodeChar c := by
              rw [hchar]
              simp
            rw [utf8EncodeChar_of_mem hmem hb] at hchar
            obtain ⟨rfl, hz⟩ | ⟨-, hz⟩ := List.singleton_eq_append_iff.mp hchar
            · obtain rfl : z = [] := (List.cons.inj hz).2
              exact ⟨isText_nil, cs, hy.symm⟩
            · cases hz

/-- What comes before a text ends between two characters. -/
theorem isBoundary_of_isText (h : IsText y) : isBoundary (x ++ y) x.length = true := by
  unfold isBoundary
  cases y with
  | nil => simp
  | cons b y =>
      have hat : (x ++ b :: y)[x.length]? = some b := by simp
      rw [hat]
      rcases h.head_cases with hb | hb
      · simp [hb]
      · simp [hb]

end Utf8

end ShaderPack
