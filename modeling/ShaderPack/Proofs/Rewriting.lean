import ShaderPack.Define.Expansion
import ShaderPack.Proofs.Characters

/-!
# What a pass writes

A pass over a text keeps count of the room that it has left. `Defines.rewriteFrom` is what it writes
when room plays no part: for every word its image, and everything else as it is. A pass gives just
that, or fails if that is too long (`pass_eq`).

* `rewriteFrom_word`, `rewriteFrom_flush`: a word is read as a whole, and its image is written where
  it ends.
* `rewriteFrom_image`: so a whole word at the front is replaced by its image.
* `rewriteFrom_quoted`: between double quotes everything stays.
* `rewriteFrom_gap`: the blanks behind a declared name stay, and so does the colon behind them.
* `isText_rewriteFrom`: a text becomes a text, if the values of names are texts.
-/

namespace ShaderPack

namespace Word

/-- Word bytes are single characters. -/
theorem lt_of_isWordByte {b : UInt8} (h : isWordByte b = true) : b < 0x80 := by
  simp only [isWordByte, isDigit, Bool.or_eq_true, Bool.and_eq_true, decide_eq_true_eq, beq_iff_eq,
    UInt8.le_iff_toNat_le, ← UInt8.toNat_inj] at h
  rw [UInt8.lt_iff_toNat_lt]
  simp only [UInt8.reduceToNat] at h ⊢
  omega

/-- So no byte of a longer character is a word byte. -/
theorem isWordByte_of_le {b : UInt8} (h : 0x80 ≤ b) : isWordByte b = false := by
  rw [← Bool.not_eq_true]
  intro hword
  exact UInt8.not_le.mpr (lt_of_isWordByte hword) h

end Word

namespace Defines

open Utf8

variable (d : Defines) {quoted : Bool} {word text after rest gap : Bytes} {b : UInt8}

/-- What is written for the word that ends in front of `after`, if there is one. -/
def flushed (quoted : Bool) (word after : Bytes) : Bytes :=
  if word.isEmpty then [] else d.image quoted word after

/-- What a scan writes for the rest of a text, in the word `word` or in none if that is empty. -/
def rewriteFrom (quoted : Bool) (word : Bytes) : Bytes → Bytes
  | [] => d.flushed quoted word []
  | b :: rest =>
    if Word.isWordByte b then rewriteFrom quoted (word ++ [b]) rest
    else d.flushed quoted word (b :: rest) ++ b :: rewriteFrom (quoted != (b == 0x22)) [] rest

/-- What a pass writes for a text. -/
def rewrite (text : Bytes) : Bytes := d.rewriteFrom false [] text

/-! ### Room -/

/-- A scan writes what it should, if there is room for it. -/
theorem scanFrom_eq (quoted : Bool) (word out : Bytes) (room : Nat) (text : Bytes) :
    d.scanFrom quoted word out room text =
      if (d.rewriteFrom quoted word.reverse text).length ≤ room then
        some (out.reverse ++ d.rewriteFrom quoted word.reverse text)
      else none := by
  induction text generalizing quoted word out room with
  | nil =>
      simp only [scanFrom, rewriteFrom, flushed, List.isEmpty_reverse]
      simp [List.reverseAux_eq]
  | cons b rest ih =>
      by_cases hb : Word.isWordByte b = true
      · simp only [scanFrom, rewriteFrom, hb, if_true, ih, List.reverse_cons]
      · have hflushed : (if word.isEmpty then [] else d.image quoted word.reverse (b :: rest)) =
            d.flushed quoted word.reverse (b :: rest) := by
          simp [flushed]
        simp only [scanFrom, rewriteFrom, hb, if_false, Bool.false_eq_true, ih, hflushed,
          List.reverse_nil, List.length_append, List.length_cons]
        by_cases hroom : (d.flushed quoted word.reverse (b :: rest)).length < room
        · rw [if_pos hroom]
          congr 1
          · apply propext
            omega
          · simp [List.reverseAux_eq]
        · rw [if_neg hroom, if_neg (by omega)]

/-- A pass gives what is written for the text, unless the text or that is too long. -/
theorem pass_eq (text : Bytes) : d.pass text =
    if text.length ≤ byteLimit ∧ (d.rewrite text).length ≤ byteLimit then
      if d.rewrite text = text then .settled else .changed (d.rewrite text)
    else .overflow := by
  have hreplaced : d.replaced? text =
      if (d.rewrite text).length ≤ byteLimit then some (d.rewrite text) else none :=
    d.scanFrom_eq false [] [] byteLimit text
  unfold pass
  rw [hreplaced]
  by_cases htext : text.length ≤ byteLimit
  · by_cases hlength : (d.rewrite text).length ≤ byteLimit
    · simp [htext, hlength]
    · simp [htext, hlength]
  · simp [htext]

/-! ### Words -/

/-- The bytes of a word are collected. -/
theorem rewriteFrom_word {w : Bytes} (hw : ∀ b ∈ w, Word.isWordByte b = true) :
    d.rewriteFrom quoted word (w ++ after) = d.rewriteFrom quoted (word ++ w) after := by
  induction w generalizing word with
  | nil => simp
  | cons b w ih =>
      have hb := hw b List.mem_cons_self
      rw [List.cons_append, rewriteFrom, if_pos hb,
        ih fun b' hb' => hw b' (List.mem_cons_of_mem _ hb'),
        List.append_assoc, List.singleton_append]

/-- What is written for a word comes first, where the word ends. -/
theorem rewriteFrom_flush (hafter : ∀ b ∈ after.head?, Word.isWordByte b = false) :
    d.rewriteFrom quoted word after =
      d.flushed quoted word after ++ d.rewriteFrom quoted [] after := by
  cases after with
  | nil => simp [rewriteFrom, flushed]
  | cons b rest =>
      have hb := hafter b rfl
      simp [rewriteFrom, hb, flushed]

/-- Between double quotes a word stays as it is. -/
theorem rewriteFrom_quoted : d.rewriteFrom true word text = word ++ d.rewriteFrom true [] text := by
  have hflushed : ∀ word after, d.flushed true word after = word := by
    intro word after
    cases word <;> simp [flushed, image]
  induction text generalizing word with
  | nil => simp [rewriteFrom, hflushed]
  | cons b rest ih =>
      by_cases hb : Word.isWordByte b = true
      · rw [rewriteFrom, rewriteFrom, if_pos hb, if_pos hb, ih, @ih ([] ++ [b])]
        simp
      · simp [rewriteFrom, hb, hflushed]

/-! ### What a pass passes over -/

/-- A byte that is quoted or in no word stays. -/
theorem rewriteFrom_cons (hb : quoted = true ∨ Word.isWordByte b = false) :
    d.rewriteFrom quoted [] (b :: rest) = b :: d.rewriteFrom (quoted != (b == 0x22)) [] rest := by
  by_cases hword : Word.isWordByte b = true
  · have hquote : (b == 0x22) = false := by
      rw [beq_eq_false_iff_ne]
      rintro rfl
      exact absurd hword (by decide)
    have hquoted : quoted = true := hb.resolve_right (by simp [hword])
    rw [rewriteFrom, if_pos hword, hquoted, rewriteFrom_quoted, hquote]
    rfl
  · simp [rewriteFrom, hword, flushed]

/-- A word is replaced by its image. -/
theorem rewriteFrom_image {w : Bytes} (hne : w ≠ []) (hw : ∀ b ∈ w, Word.isWordByte b = true)
    (hafter : ∀ b ∈ after.head?, Word.isWordByte b = false) :
    d.rewriteFrom quoted [] (w ++ after) =
      d.image quoted w after ++ d.rewriteFrom quoted [] after := by
  have hflushed : d.flushed quoted w after = d.image quoted w after := by
    simp [flushed, hne]
  rw [rewriteFrom_word d hw, List.nil_append, rewriteFrom_flush d hafter, hflushed]

/-- A blank is in no word, and it is no double quote. -/
theorem rewriteFrom_blank (hb : Word.isBlank b = true) :
    d.rewriteFrom quoted [] (b :: rest) = b :: d.rewriteFrom quoted [] rest := by
  have hkept : Word.isWordByte b = false ∧ (b == 0x22) = false := by
    rw [Word.isBlank, Bool.or_eq_true, beq_iff_eq, beq_iff_eq] at hb
    rcases hb with rfl | rfl <;> decide
  rw [d.rewriteFrom_cons (.inr hkept.1), hkept.2, Bool.bne_false]

/-- A gap and its colon stay as they are. -/
theorem rewriteFrom_gap (hgap : ∀ b ∈ gap, Word.isBlank b = true) :
    ∃ rest', d.rewriteFrom quoted [] (gap ++ 0x3A :: rest) = gap ++ 0x3A :: rest' := by
  induction gap with
  | nil => exact ⟨_, d.rewriteFrom_cons (.inr rfl)⟩
  | cons b gap ih =>
      rw [List.forall_mem_cons] at hgap
      obtain ⟨rest', hrest⟩ := ih hgap.2
      exact ⟨rest', by rw [List.cons_append, d.rewriteFrom_blank hgap.1, hrest, List.cons_append]⟩

/-! ### Texts stay texts -/

/-- Bytes from 128 on are in no word. -/
theorem rewriteFrom_high {bytes : Bytes} (hbytes : ∀ b ∈ bytes, 0x80 ≤ b) :
    d.rewriteFrom quoted [] (bytes ++ after) = bytes ++ d.rewriteFrom quoted [] after := by
  induction bytes with
  | nil => rfl
  | cons b bytes ih =>
      have hb := hbytes b List.mem_cons_self
      have hquote : (b == 0x22) = false := by
        rw [beq_eq_false_iff_ne]
        rintro rfl
        exact absurd hb (by decide)
      rw [List.cons_append, d.rewriteFrom_cons (.inr (Word.isWordByte_of_le hb)), hquote,
        Bool.bne_false, ih fun b' hb' => hbytes b' (List.mem_cons_of_mem _ hb'), List.cons_append]

/-- What is written for a word is a text. -/
theorem isText_flushed (hd : ∀ name value, d.value? name = some value → IsText value)
    (hword : ∀ b ∈ word, b < 0x80) : IsText (d.flushed quoted word after) := by
  have htext := isText_of_forall_lt hword
  unfold flushed image
  split
  · exact isText_nil
  · split
    · exact htext
    · cases hvalue : d.value? word with
      | none => exact htext
      | some value => exact hd word value hvalue

/-- If the values of names are texts, a text becomes a text. -/
theorem isText_rewriteFrom (hd : ∀ name value, d.value? name = some value → IsText value)
    (htext : IsText text) (hword : ∀ b ∈ word, b < 0x80) :
    IsText (d.rewriteFrom quoted word text) := by
  obtain ⟨cs, rfl⟩ := htext
  induction cs generalizing quoted word with
  | nil => exact d.isText_flushed hd hword
  | cons c cs ih =>
      rw [encodeChars_cons]
      rcases utf8EncodeChar_cases c with ⟨b, hc, hb⟩ | ⟨b, rest, hc, hb, hrest⟩
      · -- a character of one byte goes on with the word or ends it
        rw [hc, List.singleton_append, rewriteFrom]
        split
        · apply ih
          intro b' hb'
          rcases List.mem_append.mp hb' with hold | hnew
          · exact hword b' hold
          · rw [List.mem_singleton.mp hnew]
            exact hb
        · refine (d.isText_flushed hd hword).append ?_
          exact (isText_singleton hb).append (ih (by simp))
      · -- a longer character ends the word and stays as it is
        have hhigh : ∀ b' ∈ b :: rest, 0x80 ≤ b' := by
          intro b' hb'
          rcases List.mem_cons.mp hb' with rfl | hb'
          · exact UInt8.le_trans (by decide) hb
          · exact hrest b' hb'
        rw [hc, rewriteFrom_flush, rewriteFrom_high d hhigh]
        · refine (d.isText_flushed hd hword).append (IsText.append ⟨[c], ?_⟩ (ih (by simp)))
          rw [encodeChars_cons, hc]
          simp [encodeChars]
        · rintro b' ⟨⟩
          exact Word.isWordByte_of_le (hhigh b List.mem_cons_self)

end Defines

end ShaderPack
