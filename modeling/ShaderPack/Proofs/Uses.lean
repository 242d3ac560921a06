import ShaderPack.Proofs.Cuts
import ShaderPack.Proofs.Occurrences
import ShaderPack.Proofs.Passes
import Mathlib.Data.List.ProdSigma

/-!
# All uses at once

A pass replaces every use of a name, and what a use is depends on the text before the pass alone.
`Defines.IsUse` says so without a scan: a word between two pieces of a text that is no number, has
an even number of double quotes in front of it and no colon of a declaration behind it, and has a
value. `Defines.replaced` puts the values in at all of these places at once: each byte of the text
gives a piece of the result.

A pass gives just that, and it fails just when the text or the result is too long, so an expansion
fails just when one of its texts is (`pass_replaces_uses`).
-/

namespace ShaderPack

/-- A word that starts inside a word of the same text starts where that one starts. -/
theorem Word.Stands.before_eq {before word after before' word' after' : Bytes}
    (h : Stands before word after) (h' : Stands before' word' after')
    (hsplit : before ++ (word ++ after) = before' ++ (word' ++ after'))
    (hle : before.length ≤ before'.length) (hlt : before'.length < before.length + word.length) :
    before = before' := by
  rcases List.append_eq_append_iff.mp hsplit with ⟨x, hx, hword⟩ | ⟨x, hx, -⟩
  · have hall : ∀ b ∈ x, isWordByte b = true := by
      rcases List.append_eq_append_iff.mp hword with ⟨y, hy, -⟩ | ⟨y, hy, -⟩
      · rw [hx, hy] at hlt
        simp only [List.length_append] at hlt
        omega
      · intro b hb
        exact h.all b (hy ▸ List.mem_append_left y hb)
    cases hlast : x.getLast? with
    | none => rw [hx, List.getLast?_eq_none_iff.mp hlast, List.append_nil]
    | some b =>
        -- the byte in front of the later word would be a byte of the earlier one
        have hb := h'.start b (by rw [hx, List.getLast?_append, hlast]; rfl)
        rw [hall b (List.mem_of_getLast? hlast)] at hb
        cases hb
  · have hnil : x = [] := by
      rw [hx, List.length_append] at hle
      exact List.eq_nil_of_length_eq_zero (by omega)
    rw [hx, hnil, List.append_nil]

/-- Two words of a text that have a place in common are the same word. -/
theorem Word.Stands.unique {before word after before' word' after' : Bytes} {k : Nat}
    (h : Stands before word after) (h' : Stands before' word' after')
    (hsplit : before ++ (word ++ after) = before' ++ (word' ++ after'))
    (hk : before.length ≤ k ∧ k < before.length + word.length)
    (hk' : before'.length ≤ k ∧ k < before'.length + word'.length) :
    before = before' ∧ word = word' ∧ after = after' := by
  have hbefore : before = before' := by
    rcases Nat.le_total before.length before'.length with hle | hle
    · exact h.before_eq h' hsplit hle (by omega)
    · exact (h'.before_eq h hsplit.symm hle (by omega)).symm
  subst hbefore
  exact ⟨rfl, append_inj (List.append_cancel_left hsplit) h.all h.stop h'.all h'.stop⟩

namespace Defines

variable (d : Defines) {text before word after rest : Bytes} {k : Nat}

/-! ### Uses -/

/-- The name has a value: it is defined, or it is one of the constants. -/
def IsName (word : Bytes) : Prop := word ∈ d.keys ∨ word ∈ constants.map Prod.fst

instance (word : Bytes) : Decidable (d.IsName word) := inferInstanceAs (Decidable (_ ∨ _))

/-- The bytes `word` between `before` and `after` are a use of a name. -/
structure IsUse (before word after : Bytes) : Prop extends Word.Stands before word after where
  /-- The word is not part of a number. -/
  notNumber : ∀ b ∈ word.head?, Word.isDigit b = false
  /-- It is not between double quotes. -/
  unquoted : Even (before.count 0x22)
  /-- It is not being declared. -/
  undeclared : ¬ Word.Declares gapLimit after
  /-- It has a value. -/
  named : d.IsName word

instance (before word after : Bytes) : Decidable (d.IsUse before word after) :=
  decidable_of_iff (Word.Stands before word after ∧ word.head?.all (!Word.isDigit ·) = true ∧
      Even (before.count 0x22) ∧ ¬ Word.Declares gapLimit after ∧ d.IsName word) <| by
    simp only [Option.all_eq_true, Bool.not_eq_true']
    exact ⟨fun ⟨h₁, h₂, h₃, h₄, h₅⟩ => ⟨h₁, h₂, h₃, h₄, h₅⟩,
      fun ⟨h₁, h₂, h₃, h₄, h₅⟩ => ⟨h₁, h₂, h₃, h₄, h₅⟩⟩

/-- The places where a use starts and ends, for all uses in a text. -/
def uses (text : Bytes) : List (Nat × Nat) :=
  (List.range text.length ×ˢ List.range (text.length + 1)).filter fun u =>
    d.IsUse (text.take u.1) (text.extract u.1 u.2) (text.drop u.2)

/-- What is put in place of the byte at `k`: the value of a name for the first byte of a use,
nothing for the other bytes of a use, and the byte itself if it is in no use. -/
def written (text : Bytes) (k : Nat) : Bytes :=
  match (d.uses text).find? fun u => u.1 ≤ k ∧ k < u.2 with
  | some (i, j) => if i = k then (d.value? (text.extract i j)).getD [] else []
  | none => text[k]?.toList

/-- The text with a value in place of every use of a name. -/
def replaced (text : Bytes) : Bytes := (List.range text.length).flatMap (d.written text)

/-- Whether a scan replaces a word where it stands. -/
def replaces (o : Word.Occurrence) : Bool :=
  !o.quoted && !Word.isNumber o.word && !Word.isDeclared gapLimit o.after &&
    (d.value? o.word).isSome

variable {d}

/-- Looking up succeeds exactly for the names that are listed. -/
theorem isSome_lookup_iff {es : List (Bytes × Bytes)} :
    (es.lookup word).isSome ↔ word ∈ es.map Prod.fst := by
  rw [← Option.ne_none_iff_isSome, ne_eq, List.lookup_eq_none_iff]
  simp

/-- A name has a value. -/
theorem isSome_value?_iff : (d.value? word).isSome ↔ d.IsName word := by
  rw [IsName, Dict.keys, ← isSome_lookup_iff, ← isSome_lookup_iff, value?]
  cases d.entries.lookup word <;> simp

/-- A word is a use if and only if a scan replaces it. -/
theorem isUse_iff (h : Word.Stands before word after) : d.IsUse before word after ↔
    d.replaces ⟨Word.quotedAfter false before, word, after⟩ = true := by
  have hnumber : Word.isNumber word = false ↔ ∀ b ∈ word.head?, Word.isDigit b = false := by
    cases word <;> simp [Word.isNumber]
  simp only [replaces, Bool.and_eq_true, Bool.not_eq_true', isSome_value?_iff, hnumber, and_assoc]
  rw [Word.quotedAfter_eq_iff, ← Bool.not_eq_true, Word.isDeclared_iff]
  constructor
  · intro hu
    exact ⟨hu.unquoted, hu.notNumber, hu.undeclared, hu.named⟩
  · rintro ⟨hquoted, hnumber, hdeclared, hnamed⟩
    exact ⟨h, hnumber, hquoted, hdeclared, hnamed⟩

/-- A text is what is in front of two places, between them and behind them. -/
theorem take_append_extract {i j : Nat} (h : i ≤ j) :
    text.take i ++ (text.extract i j ++ text.drop j) = text := by
  have hdrop : text.drop j = (text.drop i).drop (j - i) := by
    rw [List.drop_drop, Nat.add_sub_cancel' h]
  rw [List.extract_eq_take_drop, hdrop, List.take_append_drop, List.take_append_drop]

/-- The word that stands between two pieces of a text. -/
theorem extract_append :
    (before ++ (word ++ after)).extract before.length (before.length + word.length) = word := by
  rw [List.extract_eq_take_drop, List.drop_left, Nat.add_sub_cancel_left, List.take_left]

/-- The places of the uses are where words are uses. -/
theorem mem_uses_iff {i j : Nat} : (i, j) ∈ d.uses text ↔ ∃ before word after,
    text = before ++ (word ++ after) ∧ i = before.length ∧ j = before.length + word.length ∧
      d.IsUse before word after := by
  simp only [uses, List.mem_filter, List.mem_product, List.mem_range, decide_eq_true_eq]
  constructor
  · rintro ⟨⟨hi, hj⟩, hu⟩
    have hlength : (text.extract i j).length = min (j - i) (text.length - i) := by
      rw [List.extract_eq_take_drop, List.length_take, List.length_drop]
    have hpos := List.length_pos_of_ne_nil hu.ne_nil
    refine ⟨_, _, _, (take_append_extract (by omega)).symm, ?_, ?_, hu⟩
    · rw [List.length_take]
      omega
    · rw [List.length_take]
      omega
  · rintro ⟨before, word, after, rfl, rfl, rfl, hu⟩
    have hpos := List.length_pos_of_ne_nil hu.ne_nil
    refine ⟨by simp only [List.length_append]; omega, ?_⟩
    rwa [List.take_left, extract_append, ← List.append_assoc, ← List.length_append, List.drop_left]

/-- A byte of a use is replaced by the value, or by nothing if it is not the first one. -/
theorem written_of_isUse (hu : d.IsUse before word after) (hk : before.length ≤ k)
    (hk' : k < before.length + word.length) : d.written (before ++ (word ++ after)) k =
      if before.length = k then (d.value? word).getD [] else [] := by
  unfold written
  split
  · next i j hfind =>
    obtain ⟨before', word', after', hsplit, rfl, rfl, hu'⟩ :=
      mem_uses_iff.mp (List.mem_of_find?_eq_some hfind)
    have hplace := List.find?_some hfind
    simp only [decide_eq_true_eq] at hplace
    obtain ⟨rfl, rfl, rfl⟩ := hu.toStands.unique hu'.toStands hsplit ⟨hk, hk'⟩ hplace
    rw [extract_append]
  · next hfind =>
    have hmem : (before.length, before.length + word.length) ∈ d.uses (before ++ (word ++ after)) :=
      mem_uses_iff.mpr ⟨before, word, after, rfl, rfl, rfl, hu⟩
    have hnot := List.find?_eq_none.mp hfind _ hmem
    simp [hk, hk'] at hnot

/-- A byte in no use stays. -/
theorem written_of_not (h : ∀ before word after, text = before ++ (word ++ after) →
    d.IsUse before word after → ¬ (before.length ≤ k ∧ k < before.length + word.length)) :
    d.written text k = text[k]?.toList := by
  unfold written
  split
  · next i j hfind =>
    obtain ⟨before, word, after, hsplit, rfl, rfl, hu⟩ :=
      mem_uses_iff.mp (List.mem_of_find?_eq_some hfind)
    have hplace := List.find?_some hfind
    simp only [decide_eq_true_eq] at hplace
    exact absurd hplace (h before word after hsplit hu)
  · rfl

/-! ### A scan replaces all uses -/

/-- The bytes of a part of a text, one by one. -/
theorem flatMap_getElem? : (List.range' before.length word.length).flatMap
    (fun k => (before ++ (word ++ after))[k]?.toList) = word := by
  induction word generalizing before with
  | nil => rfl
  | cons b word ih =>
      have hnext := @ih (before ++ [b])
      rw [List.length_append, List.length_singleton, List.append_assoc,
        List.singleton_append] at hnext
      rw [List.length_cons, List.range'_succ, List.flatMap_cons, List.cons_append, hnext]
      simp

/-- A value that is put in place of the first of some bytes, with nothing in place of the others. -/
theorem flatMap_first {i n : Nat} (hn : 0 < n) (value : Bytes) :
    (List.range' i n).flatMap (fun k => if i = k then value else []) = value := by
  obtain ⟨n, rfl⟩ := Nat.exists_eq_add_of_lt hn
  have hothers : (List.range' (i + 1) n).flatMap (fun k => if i = k then value else []) = [] := by
    rw [List.flatMap_eq_nil_iff]
    intro k hk
    rw [List.mem_range'_1] at hk
    exact if_neg (by omega)
  rw [Nat.zero_add, List.range'_succ, List.flatMap_cons, if_pos rfl, hothers, List.append_nil]

/-- A scan writes the value of a word that it replaces and leaves every other word as it is. -/
theorem image_eq (quoted : Bool) (word after : Bytes) : d.image quoted word after =
    if d.replaces ⟨quoted, word, after⟩ then (d.value? word).getD [] else word := by
  unfold image replaces
  cases quoted <;> cases Word.isNumber word <;> cases Word.isDeclared gapLimit after <;>
    cases d.value? word <;> rfl

/-- What is put in place of the bytes of a word is what a scan writes for it. -/
theorem flatMap_written_word (h : Word.Stands before word after) :
    (List.range' before.length word.length).flatMap (d.written (before ++ (word ++ after))) =
      d.image (Word.quotedAfter false before) word after := by
  rw [image_eq]
  split
  · next hr =>
    have hu := (isUse_iff h).mpr hr
    have hpieces : ∀ k ∈ List.range' before.length word.length,
        d.written (before ++ (word ++ after)) k =
          if before.length = k then (d.value? word).getD [] else [] := by
      intro k hk
      rw [List.mem_range'_1] at hk
      exact written_of_isUse hu hk.1 hk.2
    rw [List.flatMap_congr hpieces, flatMap_first (List.length_pos_of_ne_nil h.ne_nil)]
  · next hr =>
    have hpieces : ∀ k ∈ List.range' before.length word.length,
        d.written (before ++ (word ++ after)) k = (before ++ (word ++ after))[k]?.toList := by
      intro k hk
      rw [List.mem_range'_1] at hk
      apply written_of_not
      intro before' word' after' hsplit hu' hk'
      obtain ⟨rfl, rfl, rfl⟩ := h.unique hu'.toStands hsplit hk hk'
      exact hr ((isUse_iff h).mp hu')
    rw [List.flatMap_congr hpieces, flatMap_getElem?]

/-- A byte that can stand in no word is in no use. -/
theorem written_of_not_isWordByte {b : UInt8} (hb : Word.isWordByte b = false) :
    d.written (before ++ b :: rest) before.length = [b] := by
  rw [written_of_not, List.getElem?_append_right (Nat.le_refl _), Nat.sub_self]
  · rfl
  · intro before' word' after' hsplit hu hk
    -- the byte would be one of the word
    have hmem : b ∈ word' := by
      have hget : (before ++ b :: rest)[before.length]? = some b := by simp
      rw [hsplit, List.getElem?_append_right hk.1, List.getElem?_append_left (by omega)] at hget
      exact List.mem_of_getElem? hget
    rw [hu.all b hmem] at hb
    cases hb

/-- From any place that is not inside a word, a scan writes what is put in place of the bytes of the
rest. -/
theorem flatMap_written_rest (hplace : (∀ b ∈ before.getLast?, Word.isWordByte b = false) ∨
    ∀ b ∈ rest.head?, Word.isWordByte b = false) :
    (List.range' before.length rest.length).flatMap (d.written (before ++ rest)) =
      d.rewriteFrom (Word.quotedAfter false before) [] rest := by
  induction rest using Word.word_induction generalizing before with
  | nil => rfl
  | byte b rest hb ih =>
      have hplace' : ∀ b' ∈ (before ++ [b]).getLast?, Word.isWordByte b' = false := by
        simpa using hb
      have hnext := ih (.inl hplace')
      rw [List.append_assoc, List.singleton_append, List.length_append, List.length_singleton,
        Word.quotedAfter_append] at hnext
      rw [List.length_cons, List.range'_succ, List.flatMap_cons, written_of_not_isWordByte hb,
        hnext, d.rewriteFrom_cons (.inr hb)]
      rfl
  | word w after hne hw hafter ih =>
      have hstart := Word.start_of_place hne hw hplace
      have hnext := @ih (before ++ w) (.inr hafter)
      rw [List.append_assoc, List.length_append, Word.quotedAfter_append,
        Word.quotedAfter_of_not_mem (Word.quote_not_mem hw)] at hnext
      rw [List.length_append, ← List.range'_append_1, List.flatMap_append, hnext,
        flatMap_written_word ⟨hne, hw, hstart, hafter⟩, d.rewriteFrom_image hne hw hafter]

/-- A pass writes the text with all uses replaced. -/
theorem rewrite_eq_replaced : d.rewrite = d.replaced := by
  funext text
  have h : (List.range' 0 text.length).flatMap (d.written text) = d.rewrite text :=
    @flatMap_written_rest d [] text (.inl (by simp))
  rw [replaced, List.range_eq_range', h]

/-- **A pass replaces all uses of names at once.** It fails if the text or what becomes of it is too
long, it changes nothing if that is the text again, and otherwise it gives that. A walk over a text
by positions gives the same. So an expansion fails if and only if the text, or one of those that as
many passes as are made can make of it, is too long; and what it gives is never too long. -/
theorem pass_replaces_uses (d : Defines) (text : Bytes) :
    (d.pass text = .overflow ↔ byteLimit < text.length ∨ byteLimit < (d.replaced text).length) ∧
    (d.pass text = .settled ↔ d.pass text ≠ .overflow ∧ d.replaced text = text) ∧
    (d.pass text ≠ .overflow → d.pass text ≠ .settled → d.pass text = .changed (d.replaced text)) ∧
    (Utf8.IsText text → d.passByCuts text = .ok (d.pass text)) ∧
    (d.expand text = none ↔ ∃ k ≤ passLimit, byteLimit < (d.replaced^[k] text).length) ∧
    ∀ x, d.expand text = some x → x.text.length ≤ byteLimit := by
  rw [← rewrite_eq_replaced]
  refine ⟨pass_eq_overflow_iff, ?_, ?_, d.passByCuts_eq, expand_eq_none_iff,
    fun x h => (expand_eq_some h).2.1⟩
  · rw [pass_eq_settled_iff, ne_eq, pass_eq_overflow_iff, not_or, Nat.not_lt, Nat.not_lt]
    constructor
    · rintro ⟨hfit, hsame⟩
      exact ⟨⟨hfit, hsame.symm ▸ hfit⟩, hsame⟩
    · rintro ⟨⟨hfit, -⟩, hsame⟩
      exact ⟨hfit, hsame⟩
  · intro hoverflow hsettled
    rw [pass_eq] at hoverflow hsettled ⊢
    split
    · next hfit =>
      rw [if_pos hfit] at hsettled
      split
      · next hsame => simp [hsame] at hsettled
      · rfl
    · next hfit => simp [hfit] at hoverflow

/-- A name whose value uses a constant. -/
def halfTurn : Defines := Dict.ofList [(Utf8.encode "A", Utf8.encode "½*PI")]

/-- A text with uses of two names, a declaration, a literal and a number. -/
def halfTurnText : Bytes := Utf8.encode "A :\"A\"+A-é1E*E"

/-- A name that is declared, in a literal or part of a number stays, and so does one that comes in
with a value. The others are replaced. -/
theorem halfTurn_uses_replaced :
    halfTurn.replaced halfTurnText = Utf8.encode "A :\"A\"+½*PI-é1E*2.718281828459045" ∧
    halfTurn.pass halfTurnText = .changed (halfTurn.replaced halfTurnText) ∧
    halfTurn.passByCuts halfTurnText = .ok (halfTurn.pass halfTurnText) ∧
    ∃ x, halfTurn.expand halfTurnText = some x ∧ x.text.length ≤ byteLimit := by
  have hoverflow : halfTurn.pass halfTurnText ≠ .overflow := by decide +kernel
  have hsettled : halfTurn.pass halfTurnText ≠ .settled := by decide +kernel
  have hsome : (halfTurn.expand halfTurnText).isSome := by decide +kernel
  obtain ⟨x, hx⟩ := Option.isSome_iff_exists.mp hsome
  obtain ⟨-, -, hchanged, hcuts, -, hfit⟩ := pass_replaces_uses halfTurn halfTurnText
  exact ⟨by decide +kernel, hchanged hoverflow hsettled, hcuts (Utf8.isText_encode _), x, hx,
    hfit x hx⟩

end Defines

end ShaderPack
