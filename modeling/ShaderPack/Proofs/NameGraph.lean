import ShaderPack.Proofs.Literals
import Mathlib.Data.List.Chain

/-!
# Names that lead to names

The value of a name may mention names again. `Defines.IsPath` follows this from name to name. A use
that is left after some passes came in with a value in the last of them, in place of a use before
that pass, and so on back to the first text; so a path leads to it that has one name more than there
were passes (`exists_path`). If all paths are short, nothing is left to replace in the end
(`expands_completely`).

This rests on what a pass does not do. A value comes in between bytes of no word, so its words stay
what they are. Values have no double quote, so what is between double quotes stays there. A colon
behind a declared name stays where it is, blanks and all (`isDeclared_rewriteFrom`), so a word that
a pass does not replace is no use after it either (`exists_replaced`).

* `Defines.mentions_iff`, `Defines.length_le_of_rank`: both the graph and a bound for its paths can
  be computed.
-/

namespace ShaderPack

namespace Defines

variable {d : Defines} {text before word after rest n m : Bytes} {quoted : Bool} {gap k : Nat}
  {o : Word.Occurrence} {names : List Bytes}

/-! ### The graph of names -/

/-- The value of the name `n` mentions `m`: it has `m` as one of its words, and not as part of a
number. -/
def Mentions (d : Defines) (n m : Bytes) : Prop :=
  ∃ before after, d.value? n = some (before ++ (m ++ after)) ∧ Word.Stands before m after ∧
    Word.isNumber m = false

/-- Names, each of which is mentioned by the value of the one before it. -/
structure IsPath (d : Defines) (names : List Bytes) : Prop where
  /-- All of them have values. -/
  named : ∀ n ∈ names, d.IsName n
  /-- One leads to the next. -/
  chain : names.IsChain d.Mentions

/-- The names that the value of a name mentions. -/
def mentioned (d : Defines) (n : Bytes) : List Bytes :=
  ((Word.occurrences ((d.value? n).getD [])).map (·.word)).filter (!Word.isNumber ·)

/-- Which names a value mentions can be computed. -/
theorem mentions_iff : d.Mentions n m ↔ m ∈ d.mentioned n := by
  simp only [mentioned, List.mem_filter, List.mem_map, Word.mem_occurrences_iff, Bool.not_eq_true']
  constructor
  · rintro ⟨before, after, hvalue, hstands, hnumber⟩
    refine ⟨⟨⟨_, m, after⟩, ⟨before, ?_, hstands, rfl⟩, rfl⟩, hnumber⟩
    rw [hvalue, Option.getD_some]
  · rintro ⟨⟨⟨q, w, after⟩, ⟨before, hsplit, hstands, -⟩, rfl⟩, hnumber⟩
    refine ⟨before, after, ?_, hstands, hnumber⟩
    cases hvalue : d.value? n with
    | none =>
        rw [hvalue] at hsplit
        exact absurd (List.append_eq_nil_iff.mp (List.append_eq_nil_iff.mp hsplit.symm).2).1
          hstands.ne_nil
    | some value =>
        rw [hvalue] at hsplit
        exact congrArg some hsplit

/-- If every name leads to names of lower rank only, no path has more names than there are ranks. -/
theorem length_le_of_rank (rank : Bytes → Nat)
    (hrank : ∀ n ∈ d.keys ++ constants.map Prod.fst,
      rank n < k ∧ ∀ m ∈ d.mentioned n, d.IsName m → rank m < rank n)
    (h : d.IsPath names) : names.length ≤ k := by
  have hname : ∀ n, d.IsName n → n ∈ d.keys ++ constants.map Prod.fst :=
    fun n => List.mem_append.mpr
  -- from any name on, the path has at most as many further names as the rank of the name says
  have hrest : ∀ rest n, d.IsPath (n :: rest) → rest.length ≤ rank n := by
    intro rest
    induction rest with
    | nil => exact fun n _ => Nat.zero_le _
    | cons m rest ih =>
        intro n hpath
        obtain ⟨hnm, hchain⟩ := List.isChain_cons_cons.mp hpath.chain
        have hm := ih m ⟨fun n' hn' => hpath.named n' (List.mem_cons_of_mem _ hn'), hchain⟩
        have hlt := (hrank n (hname n (hpath.named n (by simp)))).2 m (mentions_iff.mp hnm)
          (hpath.named m (by simp))
        rw [List.length_cons]
        omega
  cases names with
  | nil => exact Nat.zero_le _
  | cons n rest =>
      have hle := hrest rest n h
      have hlt := (hrank n (hname n (h.named n List.mem_cons_self))).1
      rw [List.length_cons]
      omega

/-! ### What a pass leaves alone -/

/-- A colon that makes a word a declared name is still there after a pass, behind the same
blanks. -/
theorem isDeclared_rewriteFrom (h : Word.isDeclared gap after = true) :
    Word.isDeclared gap (d.rewriteFrom quoted [] after) = true := by
  obtain ⟨blanks, rest, rfl, hlength, hblanks⟩ := Word.isDeclared_iff.mp h
  obtain ⟨rest', hrewrite⟩ := d.rewriteFrom_gap hblanks
  rw [hrewrite]
  exact Word.isDeclared_iff.mpr ⟨blanks, rest', rfl, hlength, hblanks⟩

/-- A pass over a text with nothing to replace changes nothing. -/
theorem rewriteFrom_of_not_replaces
    (h : ∀ o ∈ Word.occurrencesFrom quoted word text, d.replaces o = false) :
    d.rewriteFrom quoted word text = word ++ text := by
  have hflushed : ∀ quoted word after, (∀ o ∈ Word.ended quoted word after, d.replaces o = false) →
      d.flushed quoted word after = word := by
    intro quoted word after hended
    by_cases hne : word = []
    · simp [flushed, hne]
    · have hr := hended ⟨quoted, word, after⟩ (Word.mem_ended_iff.mpr ⟨hne, rfl⟩)
      simp [flushed, hne, image_eq, hr]
  induction text generalizing quoted word with
  | nil => rw [rewriteFrom, hflushed quoted word [] h, List.append_nil]
  | cons b text ih =>
      rw [Word.occurrencesFrom] at h
      rw [rewriteFrom]
      split
      · next hb =>
        rw [if_pos hb] at h
        rw [ih h, List.append_assoc, List.singleton_append]
      · next hb =>
        rw [if_neg hb] at h
        rw [hflushed quoted word (b :: text) fun o ho => h o (List.mem_append_left _ ho),
          ih fun o ho => h o (List.mem_append_right _ ho), List.nil_append]

/-! ### Where uses come from -/

/-- What is replaced is a name. -/
theorem isName_of_replaces (h : d.replaces o = true) : d.IsName o.word := by
  simp only [replaces, Bool.and_eq_true] at h
  exact isSome_value?_iff.mp h.2

/-- What a pass writes for a word has uses only if the word is one, and then its value mentions
them. -/
theorem exists_ended (hword : ∀ b ∈ word, Word.isWordByte b = true)
    (hdeclared : Word.isDeclared gapLimit after = true → Word.isDeclared gapLimit rest = true)
    (ho : o ∈ Word.occurrencesFrom quoted [] (d.flushed quoted word after))
    (hr : d.replaces { o with after := o.after ++ rest } = true) :
    ∃ o' ∈ Word.ended quoted word after, d.replaces o' = true ∧ d.Mentions o'.word o.word := by
  have hne : word ≠ [] := by
    rintro rfl
    simp [flushed, Word.occurrencesFrom, Word.ended] at ho
  have hflushed : d.flushed quoted word after = d.image quoted word after := by
    simp [flushed, hne]
  rw [hflushed, image_eq] at ho
  simp only [replaces, Bool.and_eq_true, Bool.not_eq_true'] at hr
  obtain ⟨⟨⟨hquoted, hnumber⟩, hundeclared⟩, hsome⟩ := hr
  split at ho
  · next hr' =>
    refine ⟨⟨quoted, word, after⟩, Word.mem_ended_iff.mpr ⟨hne, rfl⟩, hr', ?_⟩
    obtain ⟨before, hsplit, hstands, -⟩ := (Word.mem_occurrencesFrom_iff (by simp)).mp ho
    rw [mentions_iff, mentioned, List.mem_filter, List.mem_map]
    refine ⟨⟨⟨Word.quotedAfter false before, o.word, o.after⟩, ?_, rfl⟩, by simp [hnumber]⟩
    exact Word.mem_occurrences_iff.mpr ⟨before, hsplit, hstands, rfl⟩
  · next hr' =>
    -- the word is still there, and it is not replaced for the same reason
    rw [Word.occurrencesFrom_run hword, List.nil_append] at ho
    obtain ⟨-, rfl⟩ := Word.mem_ended_iff.mp ho
    have hafter : Word.isDeclared gapLimit after = false := by
      rw [← Bool.not_eq_true] at hundeclared ⊢
      exact fun h => hundeclared (hdeclared h)
    have hunquoted : quoted = false := hquoted
    exact absurd (by simp [replaces, hunquoted, hnumber, hafter, hsome]) hr'

section unquoted

variable (hquotes : ∀ value ∈ d.values, 0x22 ∉ value)
include hquotes

/-- **Every use after a pass comes from a use before it**: the value of that name mentions it. -/
theorem exists_replaced (hword : ∀ b ∈ word, Word.isWordByte b = true)
    (ho : o ∈ Word.occurrencesFrom quoted [] (d.rewriteFrom quoted word text))
    (hr : d.replaces o = true) :
    ∃ o' ∈ Word.occurrencesFrom quoted word text, d.replaces o' = true ∧
    d.Mentions o'.word o.word := by
  induction text generalizing quoted word with
  | nil =>
      rw [rewriteFrom] at ho
      rw [Word.occurrencesFrom]
      exact exists_ended hword id ho (by simpa using hr)
  | cons b text ih =>
      rw [rewriteFrom] at ho
      rw [Word.occurrencesFrom]
      split at ho
      · next hb =>
        rw [if_pos hb]
        exact ih (Word.isWordByte_append hword hb) ho
      · next hb =>
        rw [if_neg hb]
        rw [Bool.not_eq_true] at hb
        rw [Word.occurrencesFrom_append (by simpa using hb),
          Word.quotedAfter_of_not_mem (quote_not_mem_flushed hquotes hword), List.mem_append] at ho
        rcases ho with ho | ho
        · obtain ⟨o₁, ho₁, rfl⟩ := List.mem_map.mp ho
          have hdeclared : Word.isDeclared gapLimit (b :: text) = true →
              Word.isDeclared gapLimit (b :: d.rewriteFrom (quoted != (b == 0x22)) [] text) =
                true := by
            rw [← d.rewriteFrom_cons (.inr hb)]
            exact isDeclared_rewriteFrom
          obtain ⟨o', ho', hr'⟩ := exists_ended hword hdeclared ho₁ hr
          exact ⟨o', List.mem_append_left _ ho', hr'⟩
        · rw [Word.occurrencesFrom, if_neg (by simp [hb])] at ho
          have hnone : ∀ b' ∈ ([] : Bytes), Word.isWordByte b' = true := by simp
          obtain ⟨o', ho', hr'⟩ := ih hnone (by simpa [Word.ended] using ho)
          exact ⟨o', List.mem_append_right _ ho', hr'⟩

/-! ### Passes until nothing is left to replace -/

/-- A use that is there after some passes ends a path with one name more than there were passes. A
path that goes on from it makes that path longer. -/
theorem exists_path (ho : o ∈ Word.occurrences (d.rewrite^[k] text)) (hr : d.replaces o = true)
    (hpath : d.IsPath (o.word :: names)) :
    ∃ longer, d.IsPath longer ∧ longer.length = k + 1 + names.length := by
  induction k generalizing o names with
  | zero => exact ⟨o.word :: names, hpath, by rw [List.length_cons]; omega⟩
  | succ k ih =>
      rw [Function.iterate_succ_apply'] at ho
      obtain ⟨o', ho', hr', hmentions⟩ := exists_replaced hquotes (by simp) ho hr
      have hpath' : d.IsPath (o'.word :: o.word :: names) := by
        refine ⟨?_, List.isChain_cons_cons.mpr ⟨hmentions, hpath.chain⟩⟩
        rintro n (_ | ⟨_, hn⟩)
        · exact isName_of_replaces hr'
        · exact hpath.named n hn
      obtain ⟨longer, hlonger, hlength⟩ := ih ho' hr' hpath'
      refine ⟨longer, hlonger, ?_⟩
      rw [hlength, List.length_cons]
      omega

/-- If no path has more than `k` names, nothing is left to replace after `k` passes. -/
theorem not_replaces_of_paths (hpaths : ∀ names, d.IsPath names → names.length ≤ k) :
    ∀ o ∈ Word.occurrences (d.rewrite^[k] text), d.replaces o = false := by
  intro o ho
  rw [← Bool.not_eq_true]
  intro hr
  have hpath : d.IsPath [o.word] :=
    ⟨by simpa using isName_of_replaces hr, List.isChain_singleton _⟩
  obtain ⟨names, hnames, hlength⟩ := exists_path hquotes ho hr hpath
  have hle := hpaths names hnames
  rw [hlength, List.length_nil] at hle
  omega

/-- If no path has more than `k` names, a pass changes nothing after `k` passes. -/
theorem rewrite_of_paths (hpaths : ∀ names, d.IsPath names → names.length ≤ k) :
    d.rewrite (d.rewrite^[k] text) = d.rewrite^[k] text :=
  rewriteFrom_of_not_replaces (not_replaces_of_paths hquotes hpaths)

variable {x : Expansion}

/-- If paths have at most as many names as there are passes, no use is left in the result. -/
theorem not_isUse_of_paths (hpaths : ∀ names, d.IsPath names → names.length ≤ passLimit)
    (h : d.expand text = some x) (hsplit : x.text = before ++ (word ++ after)) :
    ¬ d.IsUse before word after := by
  intro hu
  have hr := (isUse_iff hu.toStands).mp hu
  have hmem : ⟨Word.quotedAfter false before, word, after⟩ ∈ Word.occurrences x.text :=
    Word.mem_occurrences_iff.mpr ⟨before, hsplit, hu.toStands, rfl⟩
  rw [(expand_eq_some h).1] at hmem
  rw [not_replaces_of_paths hquotes hpaths _ hmem] at hr
  cases hr

/-- If paths have at most as many names as there are passes, the result is settled. -/
theorem pass_of_paths (hpaths : ∀ names, d.IsPath names → names.length ≤ passLimit)
    (h : d.expand text = some x) : d.pass x.text = .settled := by
  rw [pass_result_iff h, Function.iterate_succ_apply']
  exact rewrite_of_paths hquotes hpaths

/-- If paths have fewer names than there are passes, nothing is noted. -/
theorem events_of_paths (hpaths : ∀ names, d.IsPath names → names.length ≤ passLimit - 1)
    (h : d.expand text = some x) : x.events = [] := by
  have hlast : d.rewrite^[passLimit] text = d.rewrite (d.rewrite^[passLimit - 1] text) :=
    Function.iterate_succ_apply' d.rewrite (passLimit - 1) text
  rw [events_eq_nil_iff, (expand_eq_some h).2.2, hlast, rewrite_of_paths hquotes hpaths]

end unquoted

/-- Without defines, a path is one constant. -/
theorem length_le_of_isPath_empty (h : IsPath Dict.empty names) : names.length ≤ 1 :=
  length_le_of_rank (fun _ => 0) (by decide +kernel) h

/-- **Defines that do not lead back to themselves are expanded completely.** Let no value have a
double quote and no path of names be longer than there are passes. Then no use of a name is left in
what expansion gives, so another pass changes nothing and it is its own expansion. If the paths are
shorter than that by one name, nothing is noted. Without defines, this holds for every text. -/
theorem expands_completely :
    (∀ (d : Defines) (text : Bytes) (x : Expansion), (∀ value ∈ d.values, 0x22 ∉ value) →
      (∀ names, d.IsPath names → names.length ≤ passLimit) → d.expand text = some x →
      (∀ before word after, x.text = before ++ (word ++ after) → ¬ d.IsUse before word after) ∧
      d.pass x.text = .settled ∧ d.expand x.text = some ⟨x.text, true⟩ ∧
      ((∀ names, d.IsPath names → names.length ≤ passLimit - 1) → x.events = [])) ∧
    ∀ (text : Bytes) (x : Expansion), expand Dict.empty text = some x →
      x.events = [] ∧ expand Dict.empty x.text = some x := by
  constructor
  · intro d text x hquotes hpaths h
    have hpass := pass_of_paths hquotes hpaths h
    exact ⟨fun before word after => not_isUse_of_paths hquotes hpaths h, hpass,
      expand_of_settled hpass, fun hshort => events_of_paths hquotes hshort h⟩
  · intro text x h
    have hquotes : ∀ value ∈ (Dict.empty : Defines).values, 0x22 ∉ value := by
      simp [Dict.values, Dict.empty]
    have hpaths : ∀ k, 0 < k → ∀ names, IsPath Dict.empty names → names.length ≤ k :=
      fun k hk names hnames => Nat.le_trans (length_le_of_isPath_empty hnames) hk
    have hevents := events_of_paths hquotes (hpaths _ (by decide)) h
    have hpass := pass_of_paths hquotes (hpaths _ (by decide)) h
    refine ⟨hevents, ?_⟩
    rw [expand_of_settled hpass, ← events_eq_nil_iff.mp hevents]

/-- Names that lead to names in two steps. -/
def nested : Defines :=
  Dict.ofList [(Utf8.encode "A", Utf8.encode "B * 2"), (Utf8.encode "B", Utf8.encode "C + PI"),
    (Utf8.encode "C", Utf8.encode "4")]

/-- Names in values are replaced down to the last, and those that are declared or in a literal stay.
Without defines there are still the constants. -/
theorem nested_expands :
    (∃ x, nested.expand (Utf8.encode "x = A; A : \"A\"") = some x ∧
      x.text = Utf8.encode "x = 4 + 3.141592653589793 * 2; A : \"A\"" ∧
      (∀ before word after, x.text = before ++ (word ++ after) → ¬ nested.IsUse before word after) ∧
      x.events = []) ∧
    ∃ x, expand Dict.empty (Utf8.encode "2*PI") = some x ∧
    x.text = Utf8.encode "2*3.141592653589793" ∧
      x.events = [] ∧ expand Dict.empty x.text = some x := by
  have hquotes : ∀ value ∈ nested.values, 0x22 ∉ value := by decide +kernel
  have hexpand : nested.expand (Utf8.encode "x = A; A : \"A\"") =
      some ⟨Utf8.encode "x = 4 + 3.141592653589793 * 2; A : \"A\"", true⟩ := by decide +kernel
  have hconstant : expand Dict.empty (Utf8.encode "2*PI") =
      some ⟨Utf8.encode "2*3.141592653589793", true⟩ := by decide +kernel
  have hpaths : ∀ names, nested.IsPath names → names.length ≤ 3 := by
    intro names hnames
    exact length_le_of_rank
      (fun n => if n = Utf8.encode "A" then 2 else if n = Utf8.encode "B" then 1 else 0)
      (by decide +kernel) hnames
  obtain ⟨huses, -, -, hevents⟩ := expands_completely.1 nested _ _ hquotes
    (fun names hnames => Nat.le_trans (hpaths names hnames) (by decide)) hexpand
  exact ⟨⟨_, hexpand, rfl, huses,
      hevents fun names hnames => Nat.le_trans (hpaths names hnames) (by decide)⟩,
    _, hconstant, rfl, expands_completely.2 _ _ hconstant⟩

end Defines

end ShaderPack
