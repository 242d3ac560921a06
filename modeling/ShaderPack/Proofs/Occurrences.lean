import ShaderPack.Proofs.Rewriting
import Mathlib.Algebra.Group.Nat.Even

/-!
# Words in their places

Where a word stands decides what a pass does with it: whether it is between double quotes, and
whether a colon follows. `Word.Stands` says of three pieces of a text that the middle one is a word
there, so no word byte borders on it. `Word.occurrences` lists the words of a text from left to
right with what a pass looks at, and it has all of them (`mem_occurrences_iff`).

* `Word.isDeclared_iff`: the look-ahead for a colon, as a statement about what is behind the word.
* `Word.quotedAfter_eq_iff`: outside double quotes means behind an even number of them.
* `Word.occurrencesFrom_append`: words do not reach across the end of a word.
* `Word.word_induction`: induction over a text, one byte of no word or one whole word at a time.
  With `Word.occurrencesFrom_run`, which lists a word at the front as one occurrence, it carries
  what is proved about passes word by word.
-/

namespace ShaderPack

namespace Word

variable {before word after text rest w : Bytes} {b : UInt8} {quoted : Bool} {gap : Nat}

/-! ### Words -/

/-- The bytes `word` are a word between `before` and `after`: a run of word bytes that cannot be
made longer. -/
structure Stands (before word after : Bytes) : Prop where
  /-- There is a byte. -/
  ne_nil : word ≠ []
  /-- All bytes can stand in a word. -/
  all : ∀ b ∈ word, isWordByte b = true
  /-- The byte in front, if there is one, cannot. -/
  start : ∀ b ∈ before.getLast?, isWordByte b = false
  /-- The byte behind, if there is one, cannot. -/
  stop : ∀ b ∈ after.head?, isWordByte b = false

instance (before word after : Bytes) : Decidable (Stands before word after) :=
  decidable_of_iff (word ≠ [] ∧ word.all isWordByte = true ∧
      before.getLast?.all (!isWordByte ·) = true ∧ after.head?.all (!isWordByte ·) = true) <| by
    simp only [List.all_eq_true, Option.all_eq_true, Bool.not_eq_true']
    exact ⟨fun ⟨h₁, h₂, h₃, h₄⟩ => ⟨h₁, h₂, h₃, h₄⟩, fun ⟨h₁, h₂, h₃, h₄⟩ => ⟨h₁, h₂, h₃, h₄⟩⟩

/-- A run of word bytes with one more at its end is a run. -/
theorem isWordByte_append (hword : ∀ b ∈ word, isWordByte b = true) (hb : isWordByte b = true) :
    ∀ b' ∈ word ++ [b], isWordByte b' = true :=
  List.forall_mem_append.mpr ⟨hword, List.forall_mem_singleton.mpr hb⟩

/-- Where a run of word bytes ends, a text that starts with it has its first word. -/
theorem takeWhile_append (hw : ∀ b ∈ w, isWordByte b = true)
    (hafter : ∀ b ∈ after.head?, isWordByte b = false) : (w ++ after).takeWhile isWordByte = w := by
  rw [List.takeWhile_append_of_pos hw]
  cases after with
  | nil => simp
  | cons b rest => simp [hafter b rfl]

/-- The first word of a text is determined by the text. -/
theorem append_inj {w' after' : Bytes} (h : w ++ after = w' ++ after')
    (hw : ∀ b ∈ w, isWordByte b = true) (hafter : ∀ b ∈ after.head?, isWordByte b = false)
    (hw' : ∀ b ∈ w', isWordByte b = true) (hafter' : ∀ b ∈ after'.head?, isWordByte b = false) :
    w = w' ∧ after = after' := by
  have hsame : w = w' := by
    rw [← takeWhile_append hw hafter, h, takeWhile_append hw' hafter']
  subst hsame
  exact ⟨rfl, List.append_cancel_left h⟩

/-- No word stands behind word bytes only. -/
theorem Stands.before_eq_nil (h : Stands before w after)
    (hbefore : ∀ b ∈ before, isWordByte b = true) : before = [] := by
  cases hlast : before.getLast? with
  | none => exact List.getLast?_eq_none_iff.mp hlast
  | some b =>
      have hin := hbefore b (List.mem_of_getLast? hlast)
      rw [h.start b hlast] at hin
      cases hin

/-- The word of a text that is one run is that run. -/
theorem stands_run_iff (hword : ∀ b ∈ word, isWordByte b = true) :
    (word = before ++ (w ++ after) ∧ Stands before w after) ↔
      word ≠ [] ∧ before = [] ∧ w = word ∧ after = [] := by
  constructor
  · rintro ⟨h, hstands⟩
    obtain rfl := hstands.before_eq_nil fun b hb => hword b (h ▸ List.mem_append_left _ hb)
    have hsplit : w ++ after = word ++ [] := by simpa using h.symm
    obtain ⟨rfl, rfl⟩ := append_inj hsplit hstands.all hstands.stop hword (by simp)
    exact ⟨hstands.ne_nil, rfl, rfl, rfl⟩
  · rintro ⟨hne, rfl, rfl, rfl⟩
    exact ⟨by simp, hne, hword, by simp, by simp⟩

/-- A word of a text that starts with the run `word` is that run, or it is behind the byte that ends
the run. -/
theorem stands_iff (hword : ∀ b ∈ word, isWordByte b = true) (hb : isWordByte b = false) :
    (word ++ b :: rest = before ++ (w ++ after) ∧ Stands before w after) ↔
      (word ≠ [] ∧ before = [] ∧ w = word ∧ after = b :: rest) ∨
      ∃ between, before = word ++ b :: between ∧ rest = between ++ (w ++ after) ∧
        Stands between w after := by
  have hstop : ∀ b' ∈ (b :: rest).head?, isWordByte b' = false := by
    rintro b' ⟨⟩
    exact hb
  constructor
  · rintro ⟨h, hstands⟩
    rcases List.append_eq_append_iff.mp h with ⟨x, rfl, hx⟩ | ⟨x, rfl, hx⟩
    · cases x with
      | nil =>
          -- the word would start with the byte that ends the run
          have hmem : b ∈ w := by
            cases w with
            | nil => exact absurd rfl hstands.ne_nil
            | cons b' w =>
                obtain ⟨rfl, -⟩ := List.cons.inj hx
                exact List.mem_cons_self
          rw [hstands.all b hmem] at hb
          cases hb
      | cons b' between =>
          obtain ⟨rfl, rfl⟩ := List.cons.inj hx
          refine .inr ⟨between, rfl, rfl, hstands.ne_nil, hstands.all, ?_, hstands.stop⟩
          intro b' hb'
          apply hstands.start b'
          rw [List.getLast?_append, List.getLast?_cons, hb']
          rfl
    · obtain rfl := hstands.before_eq_nil fun b' hb' => hword b' (List.mem_append_left x hb')
      obtain ⟨rfl, rfl⟩ := append_inj hx hstands.all hstands.stop hword hstop
      exact .inl ⟨hstands.ne_nil, rfl, rfl, rfl⟩
  · rintro (⟨hne, rfl, rfl, rfl⟩ | ⟨between, rfl, rfl, hstands⟩)
    · exact ⟨rfl, hne, hword, by simp, hstop⟩
    · refine ⟨by simp, hstands.ne_nil, hstands.all, ?_, hstands.stop⟩
      intro b' hb'
      rw [List.getLast?_append, List.getLast?_cons] at hb'
      cases hlast : between.getLast? with
      | none =>
          rw [hlast] at hb'
          obtain rfl : b = b' := by simpa using hb'
          exact hb
      | some b'' =>
          rw [hlast] at hb'
          obtain rfl : b'' = b' := by simpa using hb'
          exact hstands.start b'' hlast

/-! ### Word by word -/

/-- A byte of a word starts a word, and what is behind the word does not go on with it. -/
theorem exists_word (hb : isWordByte b = true) (rest : Bytes) :
    ∃ w after, b :: rest = w ++ after ∧ w.head? = some b ∧
      w.length = 1 + (rest.takeWhile isWordByte).length ∧
      (∀ b' ∈ w, isWordByte b' = true) ∧ ∀ b' ∈ after.head?, isWordByte b' = false := by
  refine ⟨b :: rest.takeWhile isWordByte, rest.dropWhile isWordByte, ?_, rfl, ?_, ?_, ?_⟩
  · rw [List.cons_append, List.takeWhile_append_dropWhile]
  · rw [List.length_cons, Nat.add_comm]
  · intro b' hb'
    rcases List.mem_cons.mp hb' with rfl | hmem
    · exact hb
    · exact List.all_eq_true.mp (List.all_takeWhile (l := rest)) b' hmem
  · intro b' hb'
    have hnot := List.head?_dropWhile_not isWordByte rest
    rw [hb'] at hnot
    simpa using hnot

/-- A text is empty, or it starts with a byte that is in no word, or it starts with a word. -/
theorem word_induction {motive : Bytes → Prop} (nil : motive [])
    (byte : ∀ b rest, isWordByte b = false → motive rest → motive (b :: rest))
    (word : ∀ w after, w ≠ [] → (∀ b ∈ w, isWordByte b = true) →
      (∀ b ∈ after.head?, isWordByte b = false) → motive after → motive (w ++ after))
    (text : Bytes) : motive text := by
  induction hn : text.length using Nat.strong_induction_on generalizing text with
  | _ n ih =>
      subst hn
      cases text with
      | nil => exact nil
      | cons b rest =>
          by_cases hb : isWordByte b = true
          · obtain ⟨w, after, hrest, hhead, -, hw, hafter⟩ := exists_word hb rest
            have hne : w ≠ [] := by
              rintro rfl
              cases hhead
            have hpos := List.length_pos_of_ne_nil hne
            rw [hrest] at ih ⊢
            exact word w after hne hw hafter
              (ih after.length (by rw [List.length_append]; omega) after rfl)
          · rw [Bool.not_eq_true] at hb
            exact byte b rest hb (ih rest.length (by simp) rest rfl)

/-- A word starts at a place that is not inside a word. -/
theorem start_of_place (hne : w ≠ []) (hw : ∀ b ∈ w, isWordByte b = true)
    (hplace : (∀ b ∈ before.getLast?, isWordByte b = false) ∨
      ∀ b ∈ (w ++ after).head?, isWordByte b = false) :
    ∀ b ∈ before.getLast?, isWordByte b = false := by
  refine hplace.resolve_right fun hnot => ?_
  obtain ⟨b, w, rfl⟩ := List.exists_cons_of_ne_nil hne
  have hb := hw b List.mem_cons_self
  rw [hnot b rfl] at hb
  cases hb

/-! ### Declarations and double quotes -/

/-- Behind a name that is declared come at most `gap` blanks and a colon. -/
def Declares (gap : Nat) (after : Bytes) : Prop :=
  ∃ blanks rest, after = blanks ++ 0x3A :: rest ∧ blanks.length ≤ gap ∧
  ∀ b ∈ blanks, isBlank b = true

/-- At the end of a text nothing is declared. -/
theorem not_declares_nil : ¬ Declares gap [] := by
  rintro ⟨blanks, rest, h, -, -⟩
  cases blanks <;> cases h

/-- Without a gap, the colon has to be there at once. -/
theorem declares_zero_cons : Declares 0 (b :: rest) ↔ b = 0x3A := by
  constructor
  · rintro ⟨blanks, rest', h, hlength, -⟩
    obtain rfl := List.eq_nil_of_length_eq_zero (Nat.le_zero.mp hlength)
    exact (List.cons.inj h).1
  · rintro rfl
    exact ⟨[], rest, rfl, Nat.le_refl _, by simp⟩

/-- With a gap, a colon declares, and so does what declares behind a blank. -/
theorem declares_succ_cons :
    Declares (gap + 1) (b :: rest) ↔ b = 0x3A ∨ isBlank b = true ∧ Declares gap rest := by
  constructor
  · rintro ⟨blanks, rest', h, hlength, hblanks⟩
    cases blanks with
    | nil => exact .inl (List.cons.inj h).1
    | cons b' blanks =>
        obtain ⟨rfl, rfl⟩ := List.cons.inj h
        refine .inr ⟨hblanks b List.mem_cons_self, blanks, rest', rfl,
          Nat.le_of_succ_le_succ hlength, ?_⟩
        exact fun b' hb' => hblanks b' (List.mem_cons_of_mem _ hb')
  · rintro (rfl | ⟨hb, blanks, rest', rfl, hlength, hblanks⟩)
    · exact ⟨[], rest, rfl, Nat.zero_le _, by simp⟩
    · refine ⟨b :: blanks, rest', rfl, Nat.succ_le_succ hlength, ?_⟩
      rintro b' (_ | ⟨_, hb'⟩)
      · exact hb
      · exact hblanks b' hb'

/-- The look-ahead behind a word finds the colon of a declaration if and only if there is one. -/
theorem isDeclared_iff : isDeclared gap after = true ↔ Declares gap after := by
  induction gap generalizing after with
  | zero =>
      cases after with
      | nil => simp [isDeclared, not_declares_nil]
      | cons b rest => simp [isDeclared, declares_zero_cons]
  | succ gap ih =>
      cases after with
      | nil => simp [isDeclared, not_declares_nil]
      | cons b rest => simp [isDeclared, declares_succ_cons, ih]

instance (gap : Nat) (after : Bytes) : Decidable (Declares gap after) :=
  decidable_of_iff _ isDeclared_iff

/-- Whether a place behind `bytes` is between double quotes, if `quoted` tells so about the place in
front of them. -/
def quotedAfter (quoted : Bool) (bytes : Bytes) : Bool :=
  bytes.foldl (fun q b => q != (b == 0x22)) quoted

@[simp] theorem quotedAfter_nil : quotedAfter quoted [] = quoted := rfl

@[simp] theorem quotedAfter_cons :
    quotedAfter quoted (b :: rest) = quotedAfter (quoted != (b == 0x22)) rest := rfl

/-- Going over two pieces is going over one and then the other. -/
theorem quotedAfter_append :
    quotedAfter quoted (before ++ rest) = quotedAfter (quotedAfter quoted before) rest :=
  List.foldl_append

/-- Going over bytes without a double quote changes nothing. -/
theorem quotedAfter_of_not_mem (h : 0x22 ∉ text) : quotedAfter quoted text = quoted := by
  induction text with
  | nil => rfl
  | cons b text ih =>
      rw [List.mem_cons, not_or] at h
      have hb : (b == 0x22) = false := beq_eq_false_iff_ne.mpr (Ne.symm h.1)
      rw [quotedAfter_cons, hb, Bool.bne_false, ih h.2]

/-- No word byte is a double quote. -/
theorem quote_not_mem (h : ∀ b ∈ word, isWordByte b = true) : 0x22 ∉ word := by
  intro hmem
  exact absurd (h _ hmem) (by decide)

/-- Going over bytes changes nothing exactly if their double quotes are even in number. -/
theorem quotedAfter_eq_iff : quotedAfter quoted text = quoted ↔ Even (text.count 0x22) := by
  induction text generalizing quoted with
  | nil => simp
  | cons b text ih =>
      by_cases hb : b = 0x22
      · subst hb
        rw [List.count_cons_self, Nat.even_add_one, ← @ih (!quoted), quotedAfter_cons]
        cases quoted <;> simp
      · rw [List.count_cons_of_ne hb, ← @ih quoted, quotedAfter_cons, beq_eq_false_iff_ne.mpr hb,
          Bool.bne_false]

/-! ### The words of a text -/

/-- A word with what a pass looks at when it meets it. -/
structure Occurrence where
  /-- Whether it is between double quotes. -/
  quoted : Bool
  /-- The word. -/
  word : Bytes
  /-- The text behind it. -/
  after : Bytes
  deriving DecidableEq, Repr

/-- The word that ends in front of `after`, if there is one. -/
def ended (quoted : Bool) (word after : Bytes) : List Occurrence :=
  if word.isEmpty then [] else [⟨quoted, word, after⟩]

/-- The words of the rest of a text from left to right, if a scan is in the word `word`, or in none
if that is empty. -/
def occurrencesFrom (quoted : Bool) (word : Bytes) : Bytes → List Occurrence
  | [] => ended quoted word []
  | b :: rest =>
    if isWordByte b then occurrencesFrom quoted (word ++ [b]) rest
    else ended quoted word (b :: rest) ++ occurrencesFrom (quoted != (b == 0x22)) [] rest

/-- The words of a text from left to right. -/
def occurrences (text : Bytes) : List Occurrence := occurrencesFrom false [] text

variable {o : Occurrence}

/-- A word that ends is an occurrence, unless it is empty. -/
theorem mem_ended_iff : o ∈ ended quoted word after ↔ word ≠ [] ∧ o = ⟨quoted, word, after⟩ := by
  cases word <;> simp [ended]

/-- The words that a scan comes upon are those that stand in the text. -/
theorem mem_occurrencesFrom_iff (hword : ∀ b ∈ word, isWordByte b = true) :
    o ∈ occurrencesFrom quoted word text ↔
      ∃ before, word ++ text = before ++ (o.word ++ o.after) ∧ Stands before o.word o.after ∧
        o.quoted = quotedAfter quoted before := by
  obtain ⟨q, w, after⟩ := o
  induction text generalizing quoted word with
  | nil =>
      rw [occurrencesFrom, mem_ended_iff, List.append_nil]
      constructor
      · rintro ⟨hne, ⟨⟩⟩
        obtain ⟨hsplit, hstands⟩ := (stands_run_iff hword).mpr ⟨hne, rfl, rfl, rfl⟩
        exact ⟨[], hsplit, hstands, rfl⟩
      · rintro ⟨before, hsplit, hstands, rfl⟩
        obtain ⟨hne, rfl, rfl, rfl⟩ := (stands_run_iff hword).mp ⟨hsplit, hstands⟩
        exact ⟨hne, rfl⟩
  | cons b rest ih =>
      rw [occurrencesFrom]
      split
      · next hb =>
        rw [ih (isWordByte_append hword hb), List.append_assoc, List.singleton_append]
      · next hb =>
        rw [Bool.not_eq_true] at hb
        rw [List.mem_append, mem_ended_iff, ih (by simp)]
        constructor
        · rintro (⟨hne, ⟨⟩⟩ | ⟨between, hrest, hstands, rfl⟩)
          · obtain ⟨hsplit, hstands⟩ := (stands_iff hword hb).mpr (.inl ⟨hne, rfl, rfl, rfl⟩)
            exact ⟨[], hsplit, hstands, rfl⟩
          · obtain ⟨hsplit, hstands'⟩ :=
              (stands_iff hword hb).mpr (.inr ⟨between, rfl, hrest, hstands⟩)
            refine ⟨_, hsplit, hstands', ?_⟩
            rw [quotedAfter_append, quotedAfter_of_not_mem (quote_not_mem hword), quotedAfter_cons]
        · rintro ⟨before, hsplit, hstands, rfl⟩
          rcases (stands_iff hword hb).mp ⟨hsplit, hstands⟩ with
            ⟨hne, rfl, rfl, rfl⟩ | ⟨between, rfl, hrest, hstands'⟩
          · exact .inl ⟨hne, rfl⟩
          · refine .inr ⟨between, hrest, hstands', ?_⟩
            rw [quotedAfter_append, quotedAfter_of_not_mem (quote_not_mem hword), quotedAfter_cons]

/-- A word is listed if it stands somewhere in the text. -/
theorem mem_occurrences_iff : o ∈ occurrences text ↔
    ∃ before, text = before ++ (o.word ++ o.after) ∧ Stands before o.word o.after ∧
      o.quoted = quotedAfter false before := by
  rw [occurrences, mem_occurrencesFrom_iff (by simp), List.nil_append]

/-- A run of word bytes goes on with the word. -/
theorem occurrencesFrom_run (hw : ∀ b ∈ w, isWordByte b = true) :
    occurrencesFrom quoted word w = ended quoted (word ++ w) [] := by
  induction w generalizing word with
  | nil => rw [List.append_nil, occurrencesFrom]
  | cons b w ih =>
      rw [List.forall_mem_cons] at hw
      rw [occurrencesFrom, if_pos hw.1, ih hw.2, List.append_assoc, List.singleton_append]

/-- The words of a text that goes on behind the end of a word are the words of its two parts. -/
theorem occurrencesFrom_append (hafter : ∀ b ∈ after.head?, isWordByte b = false) :
    occurrencesFrom quoted word (text ++ after) =
      (occurrencesFrom quoted word text).map (fun o => { o with after := o.after ++ after }) ++
        occurrencesFrom (quotedAfter quoted text) [] after := by
  induction text generalizing quoted word with
  | nil =>
      cases after with
      | nil => cases word <;> simp [occurrencesFrom, ended]
      | cons b rest =>
          have hb := hafter b rfl
          cases word <;> simp [occurrencesFrom, ended, hb]
  | cons b text ih =>
      by_cases hb : isWordByte b = true
      · have hquote : (b == 0x22) = false := by
          rw [beq_eq_false_iff_ne]
          rintro rfl
          exact absurd hb (by decide)
        simp [occurrencesFrom, hb, ih, hquote]
      · cases word <;> simp [occurrencesFrom, hb, ih, ended]

end Word

end ShaderPack
