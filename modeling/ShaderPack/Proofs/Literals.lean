import ShaderPack.Proofs.Uses
import Mathlib.Algebra.Ring.Parity

/-!
# Literals survive

What is between double quotes is a literal, and no pass touches it. The double quotes cut a text
into pieces; every other piece is a literal, the last one too if its double quote is missing. A pass
changes the pieces between the literals only, if the values of names have no double quote of their
own (`sameLiterals_rewrite`), so the literals are the same after all passes (`literals_survive`),
also if the values use their own names.
-/

namespace ShaderPack

namespace Defines

variable {d : Defines} {text word after rest value n : Bytes} {quoted : Bool}

/-! ### Literals -/

/-- The two texts have the same literals: as many pieces between double quotes, and the same ones at
the odd places. -/
def SameLiterals (text text' : Bytes) : Prop :=
  (text'.splitOn 0x22).length = (text.splitOn 0x22).length ∧
    ∀ i : Nat, Odd i → (text'.splitOn 0x22)[i]? = (text.splitOn 0x22)[i]?

theorem SameLiterals.refl (text : Bytes) : SameLiterals text text := ⟨rfl, fun _ _ => rfl⟩

/-- Passes one after another keep the literals that each of them keeps. -/
theorem SameLiterals.trans {text text' text'' : Bytes} (h : SameLiterals text text')
    (h' : SameLiterals text' text'') : SameLiterals text text'' :=
  ⟨h'.1.trans h.1, fun i hi => (h'.2 i hi).trans (h.2 i hi)⟩

/-! ### Values without double quotes -/

/-- A value is that of a define or of a constant. -/
theorem mem_of_value? (h : d.value? n = some value) :
    value ∈ d.values ∨ (n, value) ∈ constants := by
  unfold value? at h
  split at h
  · next value' hlookup =>
    cases h
    rw [Dict.lookup_entries, Dict.find?_eq_some_iff] at hlookup
    exact .inl (List.mem_map.mpr ⟨_, hlookup, rfl⟩)
  · obtain ⟨before, after, hconstants, -⟩ := List.lookup_eq_some_iff.mp h
    exact .inr (by simp [hconstants])

section unquoted

variable (hquotes : ∀ value ∈ d.values, 0x22 ∉ value)
include hquotes

/-- If no value that is defined has a double quote, then no value has one. -/
theorem quote_not_mem_value (h : d.value? n = some value) : 0x22 ∉ value := by
  rcases mem_of_value? h with hmem | hmem
  · exact hquotes value hmem
  · have hconstants : ∀ e ∈ constants, 0x22 ∉ e.2 := by decide +kernel
    exact hconstants _ hmem

/-- A pass writes no double quote for a word. -/
theorem quote_not_mem_flushed (hword : ∀ b ∈ word, Word.isWordByte b = true) :
    0x22 ∉ d.flushed quoted word after := by
  have hquote := Word.quote_not_mem hword
  unfold flushed
  split
  · simp
  · rw [image_eq]
    split
    · cases hvalue : d.value? word with
      | none => simp
      | some value => exact quote_not_mem_value hquotes hvalue
    · exact hquote

/-! ### Pieces -/

/-- A piece of a text that has no double quote becomes a piece that has none, and it stays as it is
if it is a literal. -/
theorem exists_piece {piece : Bytes} (hword : ∀ b ∈ word, Word.isWordByte b = true)
    (hpiece : 0x22 ∉ piece) (hrest : ∀ b ∈ rest.head?, Word.isWordByte b = false) :
    ∃ piece', 0x22 ∉ piece' ∧ (quoted = true → piece' = word ++ piece) ∧
      d.rewriteFrom quoted word (piece ++ rest) = piece' ++ d.rewriteFrom quoted [] rest := by
  have hflushed : ∀ word after, quoted = true → d.flushed quoted word after = word := by
    rintro word after rfl
    cases word <;> simp [flushed, image]
  induction piece generalizing word with
  | nil =>
      refine ⟨d.flushed quoted word rest, quote_not_mem_flushed hquotes hword, ?_,
        d.rewriteFrom_flush hrest⟩
      intro hquoted
      rw [hflushed word rest hquoted, List.append_nil]
  | cons b piece ih =>
      rw [List.mem_cons, not_or] at hpiece
      rw [List.cons_append, rewriteFrom]
      split
      · next hb =>
        obtain ⟨piece', hpiece', hsame, hrewrite⟩ := ih (Word.isWordByte_append hword hb) hpiece.2
        refine ⟨piece', hpiece', ?_, hrewrite⟩
        intro hquoted
        rw [hsame hquoted, List.append_assoc, List.singleton_append]
      · have hb : (b == 0x22) = false := beq_eq_false_iff_ne.mpr (Ne.symm hpiece.1)
        have hnone : ∀ b' ∈ ([] : Bytes), Word.isWordByte b' = true := by simp
        obtain ⟨piece', hpiece', hsame, hrewrite⟩ := ih hnone hpiece.2
        refine ⟨d.flushed quoted word (b :: (piece ++ rest)) ++ b :: piece', ?_, ?_, ?_⟩
        · rw [List.mem_append, List.mem_cons, not_or, not_or]
          exact ⟨quote_not_mem_flushed hquotes hword, hpiece.1, hpiece'⟩
        · intro hquoted
          rw [hflushed _ _ hquoted, hsame hquoted, List.nil_append]
        · rw [hb, Bool.bne_false, hrewrite, List.append_assoc, List.cons_append]

/-- What a scan writes has the same pieces where there are literals: at the even places if the scan
starts in a literal, and at the odd ones if not. -/
theorem pieces_rewriteFrom (quoted : Bool) (text : Bytes) :
    ((d.rewriteFrom quoted [] text).splitOn 0x22).length = (text.splitOn 0x22).length ∧
      ∀ i : Nat, (quoted = true ↔ Even i) →
        ((d.rewriteFrom quoted [] text).splitOn 0x22)[i]? = (text.splitOn 0x22)[i]? := by
  -- piece by piece, each piece but the last with the double quote behind it
  induction hn : text.length using Nat.strong_induction_on generalizing quoted text with
  | _ n ih =>
      have hnone : ∀ b ∈ ([] : Bytes), Word.isWordByte b = true := by simp
      by_cases hmem : 0x22 ∈ text
      · obtain ⟨piece, rest, rfl, hpiece⟩ := List.eq_append_cons_of_mem hmem
        have hquote : ∀ b ∈ (0x22 :: rest : Bytes).head?, Word.isWordByte b = false := by
          rintro b ⟨⟩
          rfl
        obtain ⟨piece', hpiece', hsame, hrewrite⟩ := exists_piece hquotes hnone hpiece hquote
        rw [d.rewriteFrom_cons (.inr rfl), beq_self_eq_true, Bool.bne_true] at hrewrite
        have hshorter : rest.length < n := by
          rw [← hn, List.length_append, List.length_cons]
          omega
        obtain ⟨hlength, hpieces⟩ := ih rest.length hshorter (!quoted) rest rfl
        rw [hrewrite, List.splitOn_append_cons_self_of_not_mem hpiece',
          List.splitOn_append_cons_self_of_not_mem hpiece]
        refine ⟨by rw [List.length_cons, List.length_cons, hlength], ?_⟩
        intro i hi
        cases i with
        | zero =>
            rw [List.getElem?_cons_zero, List.getElem?_cons_zero, hsame (hi.mpr Even.zero),
              List.nil_append]
        | succ i =>
            rw [List.getElem?_cons_succ, List.getElem?_cons_succ]
            apply hpieces
            rw [Nat.even_add_one] at hi
            cases quoted <;> simpa using hi
      · have hend : ∀ b ∈ ([] : Bytes).head?, Word.isWordByte b = false := by simp
        obtain ⟨piece', hpiece', hsame, hrewrite⟩ := exists_piece hquotes hnone hmem hend
        rw [List.append_nil] at hrewrite
        have hlast : d.rewriteFrom quoted [] text = piece' := by
          simpa [rewriteFrom, flushed] using hrewrite
        rw [hlast, List.splitOn_eq_singleton hpiece', List.splitOn_eq_singleton hmem]
        refine ⟨rfl, ?_⟩
        intro i hi
        cases i with
        | zero => rw [hsame (hi.mpr Even.zero), List.nil_append]
        | succ i => rfl

/-- A pass keeps the literals. -/
theorem sameLiterals_rewrite (text : Bytes) : SameLiterals text (d.rewrite text) := by
  obtain ⟨hlength, hpieces⟩ := pieces_rewriteFrom hquotes false text
  refine ⟨hlength, ?_⟩
  intro i hi
  apply hpieces
  simpa using hi

/-- Any number of passes keeps all literals. -/
theorem sameLiterals_iterate (k : Nat) (text : Bytes) : SameLiterals text (d.rewrite^[k] text) := by
  induction k with
  | zero => exact .refl text
  | succ k ih =>
      rw [Function.iterate_succ_apply']
      exact ih.trans (sameLiterals_rewrite hquotes _)

end unquoted

/-- **Literals survive expansion.** If no value has a double quote, then the double quotes cut the
text and its expansion into as many pieces, and the pieces at the odd places, which are between
double quotes, are the same. -/
theorem literals_survive (d : Defines) (text : Bytes) (x : Expansion)
    (hquotes : ∀ value ∈ d.values, 0x22 ∉ value) (h : d.expand text = some x) :
    (x.text.splitOn 0x22).length = (text.splitOn 0x22).length ∧
      ∀ i : Nat, Odd i → (x.text.splitOn 0x22)[i]? = (text.splitOn 0x22)[i]? := by
  rw [(expand_eq_some h).1]
  exact sameLiterals_iterate hquotes passLimit text

/-- A text with a literal, a use of a name whose value uses it again, and a literal without an
end. -/
def openText : Bytes := Utf8.encode "\"N\"+N\"N "

/-- In a text with one literal that is closed and one that is not, names are replaced between them
only. -/
theorem openText_literals : ∃ x, selfReference.expand openText = some x ∧
    x.text.splitOn 0x22 = [[], Utf8.encode "N", Utf8.encode "+((((((((((((((((N))))))))))))))))",
      Utf8.encode "N "] ∧
    ∀ i : Nat, Odd i → (x.text.splitOn 0x22)[i]? = (openText.splitOn 0x22)[i]? := by
  have hquotes : ∀ value ∈ selfReference.values, 0x22 ∉ value := by decide +kernel
  have hexpand : selfReference.expand openText =
      some ⟨Utf8.encode "\"N\"+((((((((((((((((N))))))))))))))))\"N ", false⟩ := by decide +kernel
  exact ⟨_, hexpand, by decide +kernel, (literals_survive _ _ _ hquotes hexpand).2⟩

end Defines

end ShaderPack
