import ShaderPack.Proofs.Rewriting
import Mathlib.Logic.Function.Iterate

/-!
# Pass after pass

Expansion goes over a text again and again. What a pass writes does not depend on the passes before
it, so the texts that come up are the iterates of `Defines.rewrite`. All that expansion adds are its
two limits (`expand_eq`): every one of the texts has to fit, and the last one is the result.

Expansion stops early when a pass changes nothing. It notices this by making that pass, so a text
that settles in the last of the passes is noted as unsettled although it is not. Apart from that the
note is right: `note_exact` says when it is made, and `late_settling_noted` gives a chain of defines
for which it is wrong.
-/

namespace ShaderPack

namespace Defines

variable {d : Defines} {text : Bytes} {x : Expansion} {n : Nat}

/-! ### The texts of an expansion -/

/-- The text fits, and so do the texts that `n` passes make of it. -/
def Fits (d : Defines) (n : Nat) (text : Bytes) : Prop :=
  ∀ k ≤ n, (d.rewrite^[k] text).length ≤ byteLimit

instance (d : Defines) (n : Nat) (text : Bytes) : Decidable (d.Fits n text) :=
  inferInstanceAs (Decidable (∀ k ≤ n, _))

/-- The texts of one pass more are the text itself and the texts of what is written for it. -/
theorem fits_succ : d.Fits (n + 1) text ↔ text.length ≤ byteLimit ∧ d.Fits n (d.rewrite text) := by
  constructor
  · intro h
    exact ⟨h 0 (Nat.zero_le _), fun k hk => h (k + 1) (Nat.succ_le_succ hk)⟩
  · rintro ⟨hfirst, hrest⟩ k hk
    cases k with
    | zero => exact hfirst
    | succ k => exact hrest k (Nat.le_of_succ_le_succ hk)

/-- A text that a pass does not change fits through all passes if it fits at all. -/
theorem fits_of_same (hsame : d.rewrite text = text) : d.Fits n text ↔ text.length ≤ byteLimit := by
  have hfixed : ∀ k, d.rewrite^[k] text = text := Function.iterate_fixed hsame
  simp only [Fits, hfixed]
  exact ⟨fun h => h 0 (Nat.zero_le _), fun h _ _ => h⟩

/-- A pass fails if the text or what is written for it is too long. -/
theorem pass_eq_overflow_iff : d.pass text = .overflow ↔
    byteLimit < text.length ∨ byteLimit < (d.rewrite text).length := by
  rw [← Nat.not_le, ← Nat.not_le, ← not_and_or, pass_eq]
  split
  · next hfit => split <;> simp [hfit]
  · next hfit => simp [hfit]

/-- A pass changes nothing if the text fits and what is written for it is the text again. -/
theorem pass_eq_settled_iff :
    d.pass text = .settled ↔ text.length ≤ byteLimit ∧ d.rewrite text = text := by
  rw [pass_eq]
  constructor
  · intro h
    split at h
    · next hfit =>
      split at h
      · next hsame => exact ⟨hfit.1, hsame⟩
      · cases h
    · cases h
  · rintro ⟨hfit, hsame⟩
    rw [hsame, if_pos ⟨hfit, hfit⟩, if_pos rfl]

/-- The first pass and the passes behind it. -/
theorem expandFrom_succ (d : Defines) (n : Nat) (text : Bytes) : d.expandFrom (n + 1) text =
    if text.length ≤ byteLimit ∧ (d.rewrite text).length ≤ byteLimit then
      if d.rewrite text = text then some ⟨text, true⟩ else d.expandFrom n (d.rewrite text)
    else none := by
  rw [expandFrom, pass_eq]
  by_cases hfit : text.length ≤ byteLimit ∧ (d.rewrite text).length ≤ byteLimit
  · rw [if_pos hfit, if_pos hfit]
    by_cases hsame : d.rewrite text = text
    · rw [if_pos hsame, if_pos hsame]
    · rw [if_neg hsame, if_neg hsame]
  · rw [if_neg hfit, if_neg hfit]

/-- What at least one pass makes of a text: the last of the texts, if all of them fit. It is settled
if the last pass changed nothing. -/
theorem expandFrom_eq (d : Defines) (n : Nat) (text : Bytes) : d.expandFrom (n + 1) text =
    if d.Fits (n + 1) text then
      some ⟨d.rewrite^[n + 1] text, d.rewrite^[n] text = d.rewrite^[n + 1] text⟩
    else none := by
  -- on the passes that are left, each of which starts from what the one before it wrote
  induction n generalizing text with
  | zero =>
      have hfits : d.Fits 0 (d.rewrite text) ↔ (d.rewrite text).length ≤ byteLimit := by
        simp [Fits]
      rw [expandFrom_succ]
      simp only [fits_succ, hfits]
      congr 1
      split
      · next hsame => simp [hsame]
      · next hsame => simp [expandFrom, Ne.symm hsame]
  | succ n ih =>
      rw [expandFrom_succ, ih]
      by_cases hsame : d.rewrite text = text
      · have hfixed : ∀ k, d.rewrite^[k] text = text := Function.iterate_fixed hsame
        simp [fits_of_same hsame, hsame, hfixed]
      · simp only [fits_succ (n := n + 1), if_neg hsame]
        by_cases hrest : d.Fits (n + 1) (d.rewrite text)
        · have hnext : (d.rewrite text).length ≤ byteLimit := hrest 0 (Nat.zero_le _)
          simp only [hrest, hnext, and_true, if_true]
          rfl
        · simp only [hrest, and_false, if_false, ite_self]

/-- Expansion gives the text after all passes, if no text on the way is too long. -/
theorem expand_eq (d : Defines) (text : Bytes) : d.expand text =
    if d.Fits passLimit text then
      some ⟨d.rewrite^[passLimit] text, d.rewrite^[passLimit - 1] text = d.rewrite^[passLimit] text⟩
    else none :=
  d.expandFrom_eq (passLimit - 1) text

/-- Expansion fails if one of the texts is too long. -/
theorem expand_eq_none_iff : d.expand text = none ↔
    ∃ k ≤ passLimit, byteLimit < (d.rewrite^[k] text).length := by
  rw [expand_eq]
  split
  · next hfit => simpa [Fits] using hfit
  · next hlong => simpa [Fits] using hlong

/-- What the result of an expansion is, and when it is settled. -/
theorem expand_eq_some (h : d.expand text = some x) : x.text = d.rewrite^[passLimit] text ∧
    x.text.length ≤ byteLimit ∧
    (x.settled = true ↔ d.rewrite^[passLimit - 1] text = d.rewrite^[passLimit] text) := by
  rw [expand_eq] at h
  split at h
  · next hfit =>
    rw [← Option.some.inj h]
    simpa only [decide_eq_true_eq, iff_self, true_and, and_true]
      using hfit passLimit (Nat.le_refl _)
  · cases h

/-- A text that settles is its own expansion. -/
theorem expand_of_settled (h : d.pass text = .settled) : d.expand text = some ⟨text, true⟩ := by
  rw [expand, passLimit, expandFrom, h]

/-! ### The note on a text that did not settle -/

/-- The text settles late: the last pass still changes it, and one more pass would not. -/
def SettlesLate (d : Defines) (text : Bytes) : Prop :=
  d.rewrite^[passLimit - 1] text ≠ d.rewrite^[passLimit] text ∧
    d.rewrite^[passLimit + 1] text = d.rewrite^[passLimit] text

instance (d : Defines) (text : Bytes) : Decidable (d.SettlesLate text) :=
  inferInstanceAs (Decidable (_ ∧ _))

/-- An expansion is noted exactly if it has not settled. -/
theorem events_eq_iff : x.events = [.expansionUnsettled passLimit] ↔ x.settled = false := by
  unfold Expansion.events
  cases x.settled <;> simp

/-- Nothing is noted exactly if it has settled. -/
theorem events_eq_nil_iff : x.events = [] ↔ x.settled = true := by
  unfold Expansion.events
  cases x.settled <;> simp

/-- One more pass over the result changes nothing if and only if the iterates are the same from
there on. -/
theorem pass_result_iff (h : d.expand text = some x) :
    d.pass x.text = .settled ↔ d.rewrite^[passLimit + 1] text = d.rewrite^[passLimit] text := by
  obtain ⟨hx, hfit, -⟩ := expand_eq_some h
  rw [pass_eq_settled_iff, and_iff_right hfit, hx, ← Function.iterate_succ_apply' d.rewrite]

/-- If the last pass changes nothing, one more pass would change nothing either. -/
theorem iterate_of_settled (h : d.rewrite^[n] text = d.rewrite^[n + 1] text) :
    d.rewrite^[n + 2] text = d.rewrite^[n + 1] text := by
  calc d.rewrite^[n + 2] text = d.rewrite (d.rewrite^[n + 1] text) :=
        Function.iterate_succ_apply' d.rewrite (n + 1) text
    _ = d.rewrite (d.rewrite^[n] text) := by rw [h]
    _ = d.rewrite^[n + 1] text := (Function.iterate_succ_apply' d.rewrite n text).symm

/-- **The note on a text that did not settle is right unless the text settles late.** If it does
not, it is made just when one more pass would still change the result. If it does, it is made
although no pass would. -/
theorem note_exact (h : d.expand text = some x) :
    (¬ d.SettlesLate text →
      (x.events = [.expansionUnsettled passLimit] ↔ d.pass x.text ≠ .settled)) ∧
    (d.SettlesLate text → x.events = [.expansionUnsettled passLimit] ∧
      d.pass x.text = .settled) := by
  obtain ⟨-, -, hsettled⟩ := expand_eq_some h
  have hnote : x.events = [.expansionUnsettled passLimit] ↔
      d.rewrite^[passLimit - 1] text ≠ d.rewrite^[passLimit] text := by
    rw [events_eq_iff, ← Bool.not_eq_true, hsettled]
  rw [hnote, ne_eq, ne_eq, pass_result_iff h]
  refine ⟨fun hlate => ⟨fun hchanged hmore => hlate ⟨hchanged, hmore⟩, ?_⟩, fun hlate => hlate⟩
  intro hmore hsame
  exact hmore (iterate_of_settled hsame)

/-- A name whose value uses it again. -/
def selfReference : Defines := Dict.ofList [(Utf8.encode "N", Utf8.encode "(N)")]

/-- A chain of as many names as there are passes, each of which is the value of the one before
it. -/
def longChain : Defines :=
  Dict.ofList ((List.range passLimit).map fun i => ([0x61 + i.toUInt8], [0x62 + i.toUInt8]))

/-- The chain needs the last pass to come to its end. -/
theorem longChain_expand : longChain.expand [0x61] = some ⟨[0x71], false⟩ := by decide +kernel

/-- Both are noted: a name that mentions itself, which would go on, and the long chain, which would
not. -/
theorem selfReference_noted :
    (∃ x, selfReference.expand (Utf8.encode "N") = some x ∧
      ¬ selfReference.SettlesLate (Utf8.encode "N") ∧
      x.events = [.expansionUnsettled passLimit] ∧ selfReference.pass x.text ≠ .settled) ∧
    ∃ x, longChain.expand [0x61] = some x ∧ longChain.SettlesLate [0x61] ∧
      x.events = [.expansionUnsettled passLimit] ∧ longChain.pass x.text = .settled := by
  constructor
  · have hexpand : selfReference.expand (Utf8.encode "N") =
        some ⟨Utf8.encode "((((((((((((((((N))))))))))))))))", false⟩ := by decide +kernel
    have hlate : ¬ selfReference.SettlesLate (Utf8.encode "N") := by decide +kernel
    exact ⟨_, hexpand, hlate, rfl, ((note_exact hexpand).1 hlate).mp rfl⟩
  · have hlate : longChain.SettlesLate [0x61] := by decide +kernel
    exact ⟨_, longChain_expand, hlate, (note_exact longChain_expand).2 hlate⟩

/-- The last pass over the first name of the chain writes the last value. That is noted as not
settled, although one more pass changes nothing. -/
theorem late_settling_noted :
    ¬ ∀ (d : Defines) (text : Bytes) (x : Expansion), d.expand text = some x →
    (x.events = [.expansionUnsettled passLimit] ↔ d.pass x.text ≠ .settled) := by
  intro h
  have hpass : longChain.pass [0x71] = .settled := by decide +kernel
  exact (h longChain [0x61] _ longChain_expand).mp rfl hpass

end Defines

end ShaderPack
