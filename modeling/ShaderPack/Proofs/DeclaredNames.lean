import ShaderPack.Proofs.Literals

/-!
# Declared names survive

A word with a colon behind it is a name that is being declared, and no pass replaces it. Between the
word and the colon there may be a few blanks, its gap. `Word.declarations` lists the declared words
of a text with their gaps, place by place.

A pass keeps word, gap and colon, and it keeps the byte in front of the word, so nothing grows onto
the word there. If the values of names have no double quote, what is in front of the word does not
come to quote it. So a declaration stays one (`sublist_rewrite`), and it does so in all passes
(`declarations_survive`), also if the values use their own names. New ones may come in between,
since a value may declare names.

* `Word.declarationAt_eq_some_iff`: what is listed, as a statement about the pieces of the text.
* `Word.declarations_eq`: a scan comes upon the same words in the same order.
-/

namespace ShaderPack

namespace Word

variable {before word gap after text rest w value : Bytes} {b : UInt8} {quoted : Bool} {i : Nat}

/-! ### Declarations -/

/-- The bytes `word` between `before` and the rest are declared: they are a word outside double
quotes, and behind them come the blanks `gap` and a colon. -/
structure IsDeclaration (before word gap rest : Bytes) : Prop
    extends Stands before word (gap ++ 0x3A :: rest) where
  /-- It is not between double quotes. -/
  unquoted : Even (before.count 0x22)
  /-- The gap is short. -/
  gap_le : gap.length ≤ Defines.gapLimit
  /-- It has blanks only. -/
  gap_blank : ∀ b ∈ gap, isBlank b = true

/-- The word that starts at a place and its gap, if it is declared there. -/
def declarationAt (text : Bytes) (i : Nat) : Option (Bytes × Bytes) :=
  let word := (text.drop i).takeWhile isWordByte
  let after := (text.drop i).dropWhile isWordByte
  if Stands (text.take i) word after ∧ Even ((text.take i).count 0x22) ∧
    Declares Defines.gapLimit after then
    some (word, after.takeWhile isBlank)
  else none

/-- The declared words of a text with their gaps, from left to right. -/
def declarations (text : Bytes) : List (Bytes × Bytes) :=
  (List.range text.length).filterMap (declarationAt text)

/-- The word and its gap, if it is declared where it stands. -/
def Occurrence.declaration? (o : Occurrence) : Option (Bytes × Bytes) :=
  if o.quoted = false ∧ isDeclared Defines.gapLimit o.after = true then
    some (o.word, o.after.takeWhile isBlank)
  else none

/-- The gap in front of a colon can be told from what stands behind a word. -/
theorem takeWhile_isBlank (hgap : ∀ b ∈ gap, isBlank b = true) :
    (gap ++ 0x3A :: rest).takeWhile isBlank = gap := by
  rw [List.takeWhile_append_of_pos hgap, List.takeWhile_cons_of_neg (by decide), List.append_nil]

/-- Leaving out the word bytes at the front leaves what is behind the word. -/
theorem dropWhile_append (hw : ∀ b ∈ w, isWordByte b = true)
    (hafter : ∀ b ∈ after.head?, isWordByte b = false) :
    (w ++ after).dropWhile isWordByte = after := by
  rw [List.dropWhile_append_of_pos hw]
  cases after with
  | nil => rfl
  | cons b rest => rw [List.dropWhile_cons_of_neg (by simp [hafter b rfl])]

/-- What is declared at a place are the pieces of a text that are a declaration there. -/
theorem declarationAt_eq_some_iff :
    declarationAt text i = some (word, gap) ↔ ∃ before rest,
    text = before ++ (word ++ (gap ++ 0x3A :: rest)) ∧ before.length = i ∧
    IsDeclaration before word gap rest := by
  unfold declarationAt
  constructor
  · intro h
    rw [Option.ite_none_right_eq_some] at h
    obtain ⟨⟨hstands, hquoted, blanks, rest, hafter, hlength, hblanks⟩, hsome⟩ := h
    rw [hafter, takeWhile_isBlank hblanks] at hsome
    obtain ⟨rfl, rfl⟩ := Prod.mk.inj (Option.some.inj hsome)
    rw [hafter] at hstands
    have hsplit :
        text = text.take i ++ ((text.drop i).takeWhile isWordByte ++ (blanks ++ 0x3A :: rest)) := by
      rw [← hafter, List.takeWhile_append_dropWhile, List.take_append_drop]
    have hi : i ≤ text.length := by
      by_contra hlt
      exact hstands.ne_nil (by rw [List.drop_of_length_le (by omega)]; rfl)
    exact ⟨text.take i, rest, hsplit, List.length_take_of_le hi, hstands, hquoted, hlength, hblanks⟩
  · rintro ⟨before, rest, rfl, rfl, h⟩
    simp only [List.take_left, List.drop_left, takeWhile_append h.all h.stop,
      dropWhile_append h.all h.stop, takeWhile_isBlank h.gap_blank]
    exact if_pos ⟨h.toStands, h.unquoted, gap, rest, rfl, h.gap_le, h.gap_blank⟩

/-- A declaration starts where its word starts. -/
theorem declarationAt_of_stands (h : Stands before word after) :
    declarationAt (before ++ (word ++ after)) before.length =
      Occurrence.declaration? ⟨quotedAfter false before, word, after⟩ := by
  have hquoted : quotedAfter false before = false ↔ Even (before.count 0x22) := quotedAfter_eq_iff
  simp only [declarationAt, List.take_left, List.drop_left, takeWhile_append h.all h.stop,
    dropWhile_append h.all h.stop, Occurrence.declaration?, hquoted, isDeclared_iff, h, true_and]

/-- No declaration starts inside a word. -/
theorem declarationAt_inside (h : Stands before word after) (hi : before.length < i)
    (hi' : i < before.length + word.length) :
    declarationAt (before ++ (word ++ after)) i = none := by
  rw [Option.eq_none_iff_forall_ne_some]
  rintro ⟨word', gap'⟩ hsome
  obtain ⟨before', rest', hsplit, rfl, h'⟩ := declarationAt_eq_some_iff.mp hsome
  have hbefore := h.before_eq h'.toStands hsplit hi.le hi'
  rw [hbefore] at hi
  exact Nat.lt_irrefl _ hi

/-- No declaration starts at a place that is in no word. -/
theorem declarationAt_of_not_isWordByte (hb : isWordByte b = false) :
    declarationAt (before ++ b :: rest) before.length = none := by
  have hword : (b :: rest).takeWhile isWordByte = [] := List.takeWhile_cons_of_neg (by simp [hb])
  unfold declarationAt
  rw [List.drop_left, hword]
  exact if_neg fun h => h.1.ne_nil rfl

/-- The places of a word give its declaration, if it is declared. -/
theorem filterMap_declarationAt_word (h : Stands before word after) :
    (List.range' before.length word.length).filterMap (declarationAt (before ++ (word ++ after))) =
      (Occurrence.declaration? ⟨quotedAfter false before, word, after⟩).toList := by
  obtain ⟨n, hn⟩ := Nat.exists_eq_succ_of_ne_zero (List.length_pos_of_ne_nil h.ne_nil).ne'
  have hothers :
      (List.range' (before.length + 1) n).filterMap (declarationAt (before ++ (word ++ after))) =
        [] := by
    rw [List.filterMap_eq_nil_iff]
    intro i hi
    rw [List.mem_range'_1] at hi
    exact declarationAt_inside h (by omega) (by omega)
  rw [hn, Nat.succ_eq_add_one, List.range'_succ, List.filterMap_cons, hothers,
    declarationAt_of_stands h]
  cases Occurrence.declaration? ⟨quotedAfter false before, word, after⟩ <;> rfl

/-! ### Word by word -/

/-- The declared words that a scan comes upon, with their gaps. -/
def declarationsFrom (quoted : Bool) (text : Bytes) : List (Bytes × Bytes) :=
  (occurrencesFrom quoted [] text).filterMap Occurrence.declaration?

/-- A byte that belongs to no word is passed over, and a double quote turns. -/
theorem declarationsFrom_cons (hb : isWordByte b = false) :
    declarationsFrom quoted (b :: rest) = declarationsFrom (quoted != (b == 0x22)) rest := by
  simp [declarationsFrom, occurrencesFrom, hb, ended]

/-- What is in front of the end of a word may declare names of its own. -/
theorem declarationsFrom_append (hvalue : 0x22 ∉ value)
    (hafter : ∀ b ∈ after.head?, isWordByte b = false) :
    ∃ more, declarationsFrom quoted (value ++ after) = more ++ declarationsFrom quoted after := by
  rw [declarationsFrom, occurrencesFrom_append hafter, List.filterMap_append,
    quotedAfter_of_not_mem hvalue]
  exact ⟨_, rfl⟩

/-- A whole word at the front is a declaration or none; then come those behind it. -/
theorem declarationsFrom_word (hne : w ≠ []) (hw : ∀ b ∈ w, isWordByte b = true)
    (hafter : ∀ b ∈ after.head?, isWordByte b = false) : declarationsFrom quoted (w ++ after) =
      (Occurrence.declaration? ⟨quoted, w, after⟩).toList ++ declarationsFrom quoted after := by
  rw [declarationsFrom, occurrencesFrom_append hafter, List.filterMap_append,
    quotedAfter_of_not_mem (quote_not_mem hw), occurrencesFrom_run hw]
  cases hdeclared : Occurrence.declaration? ⟨quoted, w, after⟩ <;>
    simp [ended, hne, hdeclared, declarationsFrom]

/-- From any place that is not inside a word, a scan comes upon the declarations of the rest. -/
theorem filterMap_declarationAt_rest (hplace : (∀ b ∈ before.getLast?, isWordByte b = false) ∨
    ∀ b ∈ rest.head?, isWordByte b = false) :
    (List.range' before.length rest.length).filterMap (declarationAt (before ++ rest)) =
      declarationsFrom (quotedAfter false before) rest := by
  induction rest using word_induction generalizing before with
  | nil => rfl
  | byte b rest hb ih =>
      have hplace' : ∀ b' ∈ (before ++ [b]).getLast?, isWordByte b' = false := by
        simpa using hb
      have hnext := ih (.inl hplace')
      rw [List.append_assoc, List.singleton_append, List.length_append, List.length_singleton,
        quotedAfter_append] at hnext
      rw [List.length_cons, List.range'_succ, List.filterMap_cons,
        declarationAt_of_not_isWordByte hb, hnext, declarationsFrom_cons hb]
      rfl
  | word w after hne hw hafter ih =>
      have hstart := start_of_place hne hw hplace
      have hnext := @ih (before ++ w) (.inr hafter)
      rw [List.append_assoc, List.length_append, quotedAfter_append,
        quotedAfter_of_not_mem (quote_not_mem hw)] at hnext
      rw [List.length_append, ← List.range'_append_1, List.filterMap_append, hnext,
        filterMap_declarationAt_word ⟨hne, hw, hstart, hafter⟩, declarationsFrom_word hne hw hafter]

/-- The declarations of a text are those that a scan comes upon. -/
theorem declarations_eq (text : Bytes) : declarations text = declarationsFrom false text := by
  rw [declarations, List.range_eq_range']
  exact @filterMap_declarationAt_rest [] text (.inl (by simp))

end Word

namespace Defines

variable {d : Defines} {text word after rest gap : Bytes} {b : UInt8} {quoted : Bool}

/-! ### What a pass keeps -/

/-- A byte that is in no word stays in front. -/
theorem head?_rewriteFrom (hafter : ∀ b ∈ after.head?, Word.isWordByte b = false) :
    (d.rewriteFrom quoted [] after).head? = after.head? := by
  cases after with
  | nil => rfl
  | cons b rest => rw [d.rewriteFrom_cons (.inr (hafter b rfl)), List.head?_cons, List.head?_cons]

/-- A declared word stays, and it is declared with the same gap afterwards. -/
theorem declaration?_rewriteFrom {e : Bytes × Bytes}
    (h : Word.Occurrence.declaration? ⟨quoted, word, after⟩ = some e) :
    d.image quoted word after = word ∧
      Word.Occurrence.declaration? ⟨quoted, word, d.rewriteFrom quoted [] after⟩ = some e := by
  rw [Word.Occurrence.declaration?, Option.ite_none_right_eq_some] at h
  obtain ⟨⟨hquoted, hdeclared⟩, hsome⟩ := h
  refine ⟨by simp [image, hdeclared], ?_⟩
  obtain ⟨gap, rest, rfl, hlength, hgap⟩ := Word.isDeclared_iff.mp hdeclared
  obtain ⟨rest', hrewrite⟩ := d.rewriteFrom_gap hgap
  rw [← hsome, Word.Occurrence.declaration?, hrewrite]
  simp only [Word.takeWhile_isBlank hgap]
  exact if_pos ⟨hquoted, Word.isDeclared_iff.mpr ⟨gap, rest', rfl, hlength, hgap⟩⟩

section unquoted

variable (hquotes : ∀ value ∈ d.values, 0x22 ∉ value)
include hquotes

/-- What a scan writes has the declarations of the text, in their order. -/
theorem sublist_rewriteFrom (quoted : Bool) (text : Bytes) :
    (Word.declarationsFrom quoted text).Sublist
      (Word.declarationsFrom quoted (d.rewriteFrom quoted [] text)) := by
  induction text using Word.word_induction generalizing quoted with
  | nil => exact .refl _
  | byte b rest hb ih =>
      rw [d.rewriteFrom_cons (.inr hb), Word.declarationsFrom_cons hb,
        Word.declarationsFrom_cons hb]
      exact ih _
  | word w after hne hw hafter ih =>
      have hstop : ∀ b ∈ (d.rewriteFrom quoted [] after).head?, Word.isWordByte b = false := by
        rwa [head?_rewriteFrom hafter]
      rw [d.rewriteFrom_image hne hw hafter, Word.declarationsFrom_word hne hw hafter]
      cases hdeclared : Word.Occurrence.declaration? ⟨quoted, w, after⟩ with
      | some e =>
          obtain ⟨himage, hkept⟩ := declaration?_rewriteFrom (d := d) hdeclared
          rw [himage, Word.declarationsFrom_word hne hw hstop, hkept]
          exact (ih quoted).append_left _
      | none =>
          -- whatever is written for the word, it leaves the declarations behind it as they are
          have hquote : 0x22 ∉ d.image quoted w after := by
            have hflushed : 0x22 ∉ d.flushed quoted w after := quote_not_mem_flushed hquotes hw
            rwa [flushed, if_neg (by simpa using hne)] at hflushed
          obtain ⟨more, hmore⟩ : ∃ more, Word.declarationsFrom quoted _ =
            more ++ Word.declarationsFrom quoted _ :=
            Word.declarationsFrom_append hquote hstop
          rw [hmore]
          exact (ih quoted).trans (List.sublist_append_right _ _)

/-- A pass keeps the declarations. -/
theorem sublist_rewrite (text : Bytes) :
    (Word.declarations text).Sublist (Word.declarations (d.rewrite text)) := by
  rw [Word.declarations_eq, Word.declarations_eq]
  exact sublist_rewriteFrom hquotes false text

/-- Any number of passes keeps all declarations, in order. -/
theorem sublist_iterate (k : Nat) (text : Bytes) :
    (Word.declarations text).Sublist (Word.declarations (d.rewrite^[k] text)) := by
  induction k with
  | zero => exact .refl _
  | succ k ih =>
      rw [Function.iterate_succ_apply']
      exact ih.trans (sublist_rewrite hquotes _)

end unquoted

/-- **Declared names survive expansion.** If no value has a double quote, then the declared words of
a text, each with the gap between it and its colon, are among those of its expansion, in the same
order. -/
theorem declarations_survive (d : Defines) (text : Bytes) (x : Expansion)
    (hquotes : ∀ value ∈ d.values, 0x22 ∉ value) (h : d.expand text = some x) :
    (Word.declarations text).Sublist (Word.declarations x.text) := by
  rw [(expand_eq_some h).1]
  exact sublist_iterate hquotes passLimit text

/-- Two names that use each other, one of which declares something, and a name with an empty
value. -/
def crossed : Defines := Dict.ofList
  [(Utf8.encode "A", Utf8.encode ":B"), (Utf8.encode "B", Utf8.encode "A C:"),
    (Utf8.encode "N", [])]

/-- A text with declarations next to uses of these names, one of them in a literal. -/
def crossedText : Bytes := Utf8.encode "B:N A \t :\"B:\"N B +PI:"

/-- What is declared stays declared while the same names are replaced elsewhere, and a value that
holds a declaration adds it eight times. -/
theorem crossed_declarations : ∃ x, crossed.expand crossedText = some x ∧
    Word.declarations crossedText =
      [(Utf8.encode "B", []), (Utf8.encode "A", Utf8.encode " \t "), (Utf8.encode "PI", [])] ∧
    Word.declarations x.text = [(Utf8.encode "B", []), (Utf8.encode "A", Utf8.encode " \t ")] ++
      List.replicate 8 (Utf8.encode "C", []) ++ [(Utf8.encode "PI", [])] ∧
    (Word.declarations crossedText).Sublist (Word.declarations x.text) := by
  have hquotes : ∀ value ∈ crossed.values, 0x22 ∉ value := by decide +kernel
  have hexpand : crossed.expand crossedText =
      some ⟨Utf8.encode "B: A \t :\"B:\" ::::::::B C: C: C: C: C: C: C: C: +PI:", false⟩ := by
        decide +kernel
  exact ⟨_, hexpand, by decide +kernel, by decide +kernel,
    declarations_survive _ _ _ hquotes hexpand⟩

end Defines

end ShaderPack
