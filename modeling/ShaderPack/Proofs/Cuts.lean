import ShaderPack.Proofs.Expansion
import ShaderPack.Proofs.Occurrences
import ShaderPack.Source

/-!
# Expansion by cutting

A pass can be made by positions: it walks over the text, cuts out each word to look up its value,
and where there is one, cuts out what it has not copied yet. A cut is refused if its ends are out of
order, outside the text or inside a character (`Utf8.cut`). None of the cuts of a pass over a text
is refused, and what it gives is what a scan gives (`passByCuts_eq`), so the same holds for
expansion (`expandByCuts_eq`).

The walk is at a place that splits the text in three: `before` is copied, `kept` is passed over and
not copied yet, and `rest` is still to come. What is written in the end is what is written so far,
then `kept`, then what a scan writes for `rest` (`passFrom_eq`).
-/

namespace ShaderPack

namespace Utf8

/-! ### Cuts -/

/-- Why a part cannot be cut out of a text. -/
inductive CutFault where
  /-- The part would end before it starts. -/
  | outOfOrder (start stop : Nat)
  /-- The part would end behind the text. -/
  | outOfRange (stop : Nat)
  /-- An end of the part is inside a character. -/
  | insideCharacter (place : Nat)
  deriving DecidableEq, Repr

/-- Cut out the bytes of a text from one place to another. -/
def cut (text : Bytes) (start stop : Nat) : Except CutFault Bytes :=
  if stop < start then .error (.outOfOrder start stop)
  else if text.length < stop then .error (.outOfRange stop)
  else if !isBoundary text start then .error (.insideCharacter start)
  else if !isBoundary text stop then .error (.insideCharacter stop)
  else .ok ((text.drop start).take (stop - start))

/-- A part of a text that starts and ends in front of texts can be cut out. -/
theorem cut_eq_ok {x y z : Bytes} (hy : IsText (y ++ z)) (hz : IsText z) :
    cut (x ++ (y ++ z)) x.length (x.length + y.length) = .ok y := by
  have hstart : isBoundary (x ++ (y ++ z)) x.length = true := isBoundary_of_isText hy
  have hstop : isBoundary (x ++ (y ++ z)) (x.length + y.length) = true := by
    rw [← List.append_assoc, ← List.length_append]
    exact isBoundary_of_isText hz
  have horder : ¬ x.length + y.length < x.length := by omega
  have hrange : ¬ (x ++ (y ++ z)).length < x.length + y.length := by
    simp only [List.length_append]
    omega
  rw [cut, if_neg horder, if_neg hrange, hstart, hstop]
  simp

/-- What follows bytes below 128 in a text is a text. -/
theorem IsText.of_append {w after : Bytes} (h : IsText (w ++ after)) (hw : ∀ b ∈ w, b < 0x80) :
    IsText after := by
  induction w with
  | nil => exact h
  | cons b w ih =>
      have htail := (IsText.split (x := []) h (hw b List.mem_cons_self)).2
      exact ih htail fun b' hb' => hw b' (List.mem_cons_of_mem _ hb')

end Utf8

namespace Defines

open Utf8

variable (d : Defines)

/-! ### A pass by positions -/

/-- Where the word ends that the place `i` is in. -/
def wordEnd (text : Bytes) (i : Nat) : Nat := i + ((text.drop i).takeWhile Word.isWordByte).length

/-- A word that starts somewhere ends behind that place, so a pass moves on. -/
theorem lt_wordEnd (text : Bytes) (i : Nat) : i < wordEnd text (i + 1) :=
  Nat.lt_of_lt_of_le (Nat.lt_succ_self i) (Nat.le_add_right _ _)

/-- Deal with the word between two places. The text in front of `copied` has been dealt with and
gave `out`; the result says the same about the end of the word, or nothing if there would be too
much. -/
def takeWord (text : Bytes) (start stop copied : Nat) (out : Bytes) :
    Except CutFault (Option (Nat × Bytes)) :=
  match cut text start stop with
  | .error fault => .error fault
  | .ok word =>
    match d.value? word with
    | none => .ok (some (copied, out))
    | some value =>
      if Word.isDeclared gapLimit (text.drop stop) then .ok (some (copied, out))
      else
        match cut text copied start with
        | .error fault => .error fault
        | .ok kept =>
          if byteLimit < (out ++ kept ++ value).length then .ok none
          else .ok (some (stop, out ++ kept ++ value))

/-- Copy what is left of a text behind `copied`, where `out` has been written. -/
def takeRest (text : Bytes) (copied : Nat) (out : Bytes) : Except CutFault Pass :=
  if copied = 0 then .ok .settled
  else
    match cut text copied text.length with
    | .error fault => .error fault
    | .ok kept =>
      if byteLimit < (out ++ kept).length then .ok .overflow
      else if out ++ kept = text then .ok .settled
      else .ok (.changed (out ++ kept))

/-- Go on with a pass at the place `i`. The text in front of `copied` has been dealt with and gave
`out`; `quoted` tells whether the place is between double quotes. -/
def passFrom (text : Bytes) (i : Nat) (quoted : Bool) (copied : Nat) (out : Bytes) :
    Except CutFault Pass :=
  match _h : text[i]? with
  | none => takeRest text copied out
  | some b =>
    if b = 0x5C ∧ text[i + 1]? = some 0x22 then passFrom text (i + 2) (!quoted) copied out
    else if b = 0x22 then passFrom text (i + 1) (!quoted) copied out
    else if quoted || !Word.isWordByte b then passFrom text (i + 1) quoted copied out
    else if Word.isDigit b then passFrom text (wordEnd text (i + 1)) quoted copied out
    else
      match d.takeWord text i (wordEnd text (i + 1)) copied out with
      | .error fault => .error fault
      | .ok none => .ok .overflow
      | .ok (some (copied', out')) => passFrom text (wordEnd text (i + 1)) quoted copied' out'
termination_by text.length - i
decreasing_by
  all_goals
    have hi := (List.getElem?_eq_some_iff.mp _h).1
    have hend := lt_wordEnd text i
    omega

/-- At the end of a text, a pass copies what is left. -/
theorem passFrom_of_none {text : Bytes} {i : Nat} (h : text[i]? = none) (quoted : Bool)
    (copied : Nat) (out : Bytes) :
    d.passFrom text i quoted copied out = takeRest text copied out := by
  rw [passFrom]
  split
  · rfl
  · next h' => simp [h] at h'

/-- At a byte, a pass does one of five things: it goes over an escaped quote, over a quote, over a
byte that is no word or is in a literal, over a number, or it deals with a word. -/
theorem passFrom_of_some {text : Bytes} {i : Nat} {b : UInt8} (h : text[i]? = some b)
    (quoted : Bool) (copied : Nat) (out : Bytes) : d.passFrom text i quoted copied out =
      if b = 0x5C ∧ text[i + 1]? = some 0x22 then d.passFrom text (i + 2) (!quoted) copied out
      else if b = 0x22 then d.passFrom text (i + 1) (!quoted) copied out
      else if quoted || !Word.isWordByte b then d.passFrom text (i + 1) quoted copied out
      else if Word.isDigit b then d.passFrom text (wordEnd text (i + 1)) quoted copied out
      else
        match d.takeWord text i (wordEnd text (i + 1)) copied out with
        | .error fault => .error fault
        | .ok none => .ok .overflow
        | .ok (some (copied', out')) =>
            d.passFrom text (wordEnd text (i + 1)) quoted copied' out' := by
  rw [passFrom]
  split
  · next h' => simp [h] at h'
  · next b' h' =>
    obtain rfl : b = b' := Option.some.inj (h.symm.trans h')
    rfl

/-- One pass over a text, by positions. -/
def passByCuts (text : Bytes) : Except CutFault Pass :=
  if byteLimit < text.length then .ok .overflow else d.passFrom text 0 false 0 []

/-! ### What a pass passes over -/

variable {text before kept rest out after : Bytes} {quoted : Bool} {b : UInt8}

/-- The bytes from the place of a pass on. -/
theorem getElem?_append_append (before kept rest : Bytes) (n : Nat) :
    (before ++ (kept ++ rest))[before.length + kept.length + n]? = rest[n]? := by
  rw [← List.append_assoc, ← List.length_append, List.getElem?_append_right (Nat.le_add_right _ _),
    Nat.add_sub_cancel_left]

/-- What is left behind a word at the place of a pass. -/
theorem drop_append_append (before kept w after : Bytes) :
    (before ++ (kept ++ (w ++ after))).drop (before.length + kept.length + w.length) = after := by
  rw [← List.append_assoc, ← List.append_assoc, ← List.length_append, ← List.length_append,
    List.drop_left]

/-- Where a word ends that starts at the place of a pass. -/
theorem wordEnd_eq (before kept rest : Bytes) (b : UInt8) :
    wordEnd (before ++ (kept ++ b :: rest)) (before.length + kept.length + 1) =
      before.length + kept.length + (1 + (rest.takeWhile Word.isWordByte).length) := by
  have hdrop := drop_append_append before kept [b] rest
  rw [List.singleton_append, List.length_singleton] at hdrop
  rw [wordEnd, hdrop, Nat.add_assoc]

/-- A pass is at the place in front of `rest`: it has written `out` for `before`, and it has passed
over `kept`. -/
structure Place (text before kept rest out : Bytes) (quoted : Bool) : Prop where
  split : text = before ++ (kept ++ rest)
  isText : IsText (kept ++ rest)
  written : d.rewrite text = out ++ (kept ++ d.rewriteFrom quoted [] rest)
  first : before = [] → out = []

namespace Place

variable {d} {w value : Bytes} {quoted' : Bool}

/-- The bytes of the text from a place on are the bytes that are left. -/
theorem getElem? (h : d.Place text before kept rest out quoted) (n : Nat) :
    text[before.length + kept.length + n]? = rest[n]? := by
  rw [h.split, getElem?_append_append]

/-- The byte at a place is the first that is left. -/
theorem head? (h : d.Place text before kept rest out quoted) :
    text[before.length + kept.length]? = rest.head? := by
  rw [← Nat.add_zero (before.length + kept.length), h.getElem?, List.head?_eq_getElem?]

/-- What stays as it is is passed over. -/
theorem keep (h : d.Place text before kept (w ++ after) out quoted)
    (hkept : d.rewriteFrom quoted [] (w ++ after) = w ++ d.rewriteFrom quoted' [] after) :
    d.Place text before (kept ++ w) after out quoted' where
  split := by rw [h.split, List.append_assoc]
  isText := by
    rw [List.append_assoc]
    exact h.isText
  written := by rw [h.written, hkept, List.append_assoc]
  first := h.first

/-- The text from a word on is a text, and so is the text behind the word. -/
theorem isText_word (h : d.Place text before kept (w ++ after) out quoted) (hne : w ≠ [])
    (hw : ∀ b ∈ w, Word.isWordByte b = true) : IsText (w ++ after) ∧ IsText after := by
  have hlow : ∀ b ∈ w, b < 0x80 := fun b hb => Word.lt_of_isWordByte (hw b hb)
  cases w with
  | nil => exact absurd rfl hne
  | cons b w =>
      have hb := hlow b List.mem_cons_self
      obtain ⟨-, hrest⟩ := h.isText.split hb
      have hword : IsText (b :: w ++ after) := (isText_singleton hb).append hrest
      exact ⟨hword, hword.of_append hlow⟩

/-- A word with a value is replaced by it. -/
theorem replace (h : d.Place text before kept (w ++ after) out quoted) (hne : w ≠ [])
    (hw : ∀ b ∈ w, Word.isWordByte b = true)
    (hvalue : d.rewriteFrom quoted [] (w ++ after) = value ++ d.rewriteFrom quoted [] after) :
    d.Place text (before ++ (kept ++ w)) [] after (out ++ kept ++ value) quoted where
  split := by
    rw [h.split]
    simp
  isText := (h.isText_word hne hw).2
  written := by
    rw [h.written, hvalue]
    simp
  first hnil := by simp_all

/-- A word can be cut out, and so can what was passed over in front of it. -/
theorem cuts (h : d.Place text before kept (w ++ after) out quoted) (hne : w ≠ [])
    (hw : ∀ b ∈ w, Word.isWordByte b = true) :
    cut text (before.length + kept.length) (before.length + kept.length + w.length) = .ok w ∧
      cut text before.length (before.length + kept.length) = .ok kept := by
  obtain ⟨hword, hafter⟩ := h.isText_word hne hw
  constructor
  · have hcut := cut_eq_ok (x := before ++ kept) hword hafter
    rwa [List.append_assoc, ← h.split, List.length_append] at hcut
  · have hcut := cut_eq_ok (x := before) h.isText hword
    rwa [← h.split] at hcut

/-- At the end, the rest of the text is cut out and written. -/
theorem takeRest_eq (h : d.Place text before kept [] out quoted)
    (hlength : text.length ≤ byteLimit) :
    takeRest text before.length out = .ok (d.pass text) := by
  have hwritten : d.rewrite text = out ++ kept := by
    rw [h.written, rewriteFrom]
    simp [flushed]
  have htext : text = before ++ kept := by
    rw [h.split, List.append_nil]
  unfold takeRest
  split
  · next hcopied =>
    have hbefore := List.eq_nil_of_length_eq_zero hcopied
    have hsame : d.rewrite text = text := by
      rw [hwritten, h.first hbefore, htext, hbefore]
    rw [pass_eq, hsame, if_pos ⟨hlength, hlength⟩, if_pos rfl]
  · have hcut : cut text before.length text.length = .ok kept := by
      have := cut_eq_ok (x := before) h.isText isText_nil
      rwa [List.append_nil, ← htext, ← List.length_append, ← htext] at this
    rw [hcut, pass_eq, hwritten]
    by_cases hlimit : byteLimit < (out ++ kept).length
    · rw [if_neg fun hboth => Nat.not_le.mpr hlimit hboth.2]
      simp only [hlimit, if_true]
    · have hboth : text.length ≤ byteLimit ∧ (out ++ kept).length ≤ byteLimit :=
        ⟨hlength, Nat.not_lt.mp hlimit⟩
      rw [if_pos hboth]
      simp only [hlimit, if_false]
      split <;> rfl

/-- A word that stays is passed over with the rest. -/
theorem keep_word (h : d.Place text before kept (w ++ after) out quoted) (hne : w ≠ [])
    (hw : ∀ b ∈ w, Word.isWordByte b = true) (hafter : ∀ b ∈ after.head?, Word.isWordByte b = false)
    (himage : d.image quoted w after = w) : d.Place text before (kept ++ w) after out quoted := by
  apply h.keep
  rw [d.rewriteFrom_image hne hw hafter, himage]

/-- A word is left for later or replaced, and the pass is behind the word then. Otherwise there is
too much. -/
theorem takeWord_cases (h : d.Place text before kept (w ++ after) out false) (hne : w ≠ [])
    (hw : ∀ b ∈ w, Word.isWordByte b = true) (hafter : ∀ b ∈ after.head?, Word.isWordByte b = false)
    (hnumber : Word.isNumber w = false) :
    (d.pass text = .overflow ∧ d.takeWord text (before.length + kept.length)
      (before.length + kept.length + w.length) before.length out = .ok none) ∨
    ∃ before' kept' out', d.Place text before' kept' after out' false ∧
      before'.length + kept'.length = before.length + kept.length + w.length ∧
      d.takeWord text (before.length + kept.length) (before.length + kept.length + w.length)
        before.length out = .ok (some (before'.length, out')) := by
  obtain ⟨hcutWord, hcutKept⟩ := h.cuts hne hw
  have hdrop : text.drop (before.length + kept.length + w.length) = after := by
    rw [h.split, drop_append_append]
  have hstays : d.image false w after = w → d.Place text before (kept ++ w) after out false ∧
      before.length + (kept ++ w).length = before.length + kept.length + w.length := by
    intro himage
    exact ⟨h.keep_word hne hw hafter himage, by rw [List.length_append, Nat.add_assoc]⟩
  simp only [takeWord, hcutWord, hcutKept, hdrop]
  cases hvalue : d.value? w with
  | none =>
      obtain ⟨hplace, hend⟩ := hstays (by simp [image, hvalue])
      exact .inr ⟨before, kept ++ w, out, hplace, hend, rfl⟩
  | some value =>
      by_cases hdeclared : Word.isDeclared gapLimit after = true
      · obtain ⟨hplace, hend⟩ := hstays (by simp [image, hdeclared])
        exact .inr ⟨before, kept ++ w, out, hplace, hend, by simp [hdeclared]⟩
      · have himage : d.image false w after = value := by
          simp [image, hnumber, hdeclared, hvalue]
        have hplace := h.replace hne hw (by rw [d.rewriteFrom_image hne hw hafter, himage])
        by_cases hlimit : byteLimit < (out ++ kept ++ value).length
        · refine .inl ⟨?_, by simp only [hdeclared, hlimit, if_true, if_false, Bool.false_eq_true]⟩
          have hlong : byteLimit < (d.rewrite text).length := by
            rw [hplace.written, List.length_append]
            omega
          rw [pass_eq, if_neg fun hboth => Nat.not_le.mpr hlong hboth.2]
        · have hend : (before ++ (kept ++ w)).length = before.length + kept.length + w.length := by
            rw [List.length_append, List.length_append, Nat.add_assoc]
          refine .inr ⟨before ++ (kept ++ w), [], out ++ kept ++ value, hplace, hend, ?_⟩
          simp only [hdeclared, hlimit, hend, if_false, Bool.false_eq_true]

end Place

/-- A pass that is in front of a word goes on behind it, if it can. -/
theorem passFrom_word (h : d.Place text before kept (b :: rest) out false)
    (hb : Word.isWordByte b = true)
    (hgo : ∀ {before kept after out : Bytes}, after.length < (b :: rest).length →
      d.Place text before kept after out false →
      d.passFrom text (before.length + kept.length) false before.length out = .ok (d.pass text)) :
    d.passFrom text (before.length + kept.length) false before.length out = .ok (d.pass text) := by
  obtain ⟨w, after, hrest, hhead, hlength, hw, hafter⟩ := Word.exists_word hb rest
  have hne : w ≠ [] := by
    rintro rfl
    cases hhead
  have hshorter : after.length < (b :: rest).length := by
    have hpos := List.length_pos_of_ne_nil hne
    rw [hrest, List.length_append]
    omega
  have hnumber : Word.isNumber w = Word.isDigit b := by
    cases w with
    | nil => cases hhead
    | cons b' w => rw [Word.isNumber, Option.some.inj hhead]
  have hend : wordEnd text (before.length + kept.length + 1) =
      before.length + kept.length + w.length := by
    rw [h.split, wordEnd_eq, hlength]
  have hescape : b ≠ 0x5C := by
    rintro rfl
    exact absurd hb (by decide)
  have hquote : b ≠ 0x22 := by
    rintro rfl
    exact absurd hb (by decide)
  rw [d.passFrom_of_some h.head?, hend]
  simp only [hescape, hquote, hb, false_and, if_false, Bool.not_true, Bool.or_self,
    Bool.false_eq_true]
  rw [hrest] at h
  split
  · next hdigit =>
    have hnext := hgo hshorter (h.keep_word hne hw hafter (by simp [image, hnumber, hdigit]))
    rwa [List.length_append, ← Nat.add_assoc] at hnext
  · next hdigit =>
    rcases h.takeWord_cases hne hw hafter (by simpa [hnumber] using hdigit) with
      ⟨hoverflow, htake⟩ | ⟨before', kept', out', hplace, hbehind, htake⟩
    · rw [htake, hoverflow]
    · rw [htake, ← hbehind]
      exact hgo hshorter hplace

/-- **None of the cuts of a pass is refused**, wherever the pass is, and the pass gives what a scan
gives. -/
theorem passFrom_eq (hlength : text.length ≤ byteLimit)
    (h : d.Place text before kept rest out quoted) :
    d.passFrom text (before.length + kept.length) quoted before.length out = .ok (d.pass text) := by
  -- on what is still to come
  induction hn : rest.length
    using Nat.strong_induction_on generalizing before kept rest out quoted with
  | _ n ih =>
      have hkeep : ∀ w after quoted', w ≠ [] → rest = w ++ after →
          d.rewriteFrom quoted [] rest = w ++ d.rewriteFrom quoted' [] after →
          d.passFrom text (before.length + kept.length + w.length) quoted' before.length out =
            .ok (d.pass text) := by
        rintro w after quoted' hne rfl hkept
        have hpos := List.length_pos_of_ne_nil hne
        rw [List.length_append] at hn
        have hnext := ih after.length (by omega) (h.keep hkept) rfl
        rwa [List.length_append, ← Nat.add_assoc] at hnext
      cases rest with
      | nil =>
          rw [d.passFrom_of_none h.head?]
          exact h.takeRest_eq hlength
      | cons b rest =>
          by_cases hword : quoted = false ∧ Word.isWordByte b = true
          · obtain ⟨rfl, hb⟩ := hword
            refine d.passFrom_word h hb fun hshorter hplace => ?_
            exact ih _ (hn ▸ hshorter) hplace rfl
          have hskip : quoted = true ∨ Word.isWordByte b = false := by
            rwa [not_and_or, Bool.not_eq_false, Bool.not_eq_true] at hword
          rw [d.passFrom_of_some h.head?, h.getElem? 1]
          split
          · next hescape =>
            -- a double quote behind a backslash counts as well
            obtain ⟨rfl, hquote⟩ := hescape
            cases rest with
            | nil => cases hquote
            | cons b' rest =>
                obtain rfl : b' = 0x22 := Option.some.inj hquote
                refine hkeep [0x5C, 0x22] rest (!quoted) (by simp) rfl ?_
                rw [d.rewriteFrom_cons (.inr rfl), d.rewriteFrom_cons (.inr rfl)]
                simp
          · split
            · next hquote =>
              refine hkeep [b] rest (!quoted) (by simp) rfl ?_
              rw [d.rewriteFrom_cons hskip, hquote]
              simp
            · next hquote =>
              rw [if_pos (by simpa using hskip)]
              refine hkeep [b] rest quoted (by simp) rfl ?_
              rw [d.rewriteFrom_cons hskip, beq_eq_false_iff_ne.mpr hquote]
              simp

/-- A pass by positions over a text is a pass. -/
theorem passByCuts_eq (htext : IsText text) : d.passByCuts text = .ok (d.pass text) := by
  unfold passByCuts
  split
  · next hlong =>
    rw [pass_eq, if_neg fun hboth => Nat.not_le.mpr hlong hboth.1]
  · next hlength =>
    have hplace : d.Place text [] [] text [] false := ⟨rfl, htext, rfl, fun _ => rfl⟩
    exact d.passFrom_eq (Nat.not_lt.mp hlength) hplace

/-! ### Expansion -/

/-- At most `passes` passes over a text, by positions. -/
def expandByCutsFrom : (passes : Nat) → (text : Bytes) → Except CutFault (Option Expansion)
  | 0, text => .ok (some ⟨text, false⟩)
  | passes + 1, text =>
    match d.passByCuts text with
    | .error fault => .error fault
    | .ok .overflow => .ok none
    | .ok .settled => .ok (some ⟨text, true⟩)
    | .ok (.changed next) => expandByCutsFrom passes next

/-- Put the values of names into a text, by positions. -/
def expandByCuts (text : Bytes) : Except CutFault (Option Expansion) :=
  d.expandByCutsFrom passLimit text

/-- A pass makes a text of a text, if the values of names are texts. -/
theorem isText_of_pass (hd : ∀ name value, d.value? name = some value → IsText value)
    (htext : IsText text) {next : Bytes} (h : d.pass text = .changed next) : IsText next := by
  rw [pass_eq] at h
  split at h
  · split at h
    · cases h
    · cases h
      exact d.isText_rewriteFrom hd htext (by simp)
  · cases h

/-- The run lemma: no pass has a cut refused, so all passes together give what scans give. -/
theorem expandByCutsFrom_eq (hd : ∀ name value, d.value? name = some value → IsText value)
    (htext : IsText text) (passes : Nat) :
    d.expandByCutsFrom passes text = .ok (d.expandFrom passes text) := by
  induction passes generalizing text with
  | zero => rfl
  | succ passes ih =>
      rw [expandByCutsFrom, expandFrom, d.passByCuts_eq htext]
      cases hpass : d.pass text with
      | overflow => rfl
      | settled => rfl
      | changed next => exact ih (d.isText_of_pass hd htext hpass)

/-- Expansion by positions of a text is expansion, if the values of names are texts. -/
theorem expandByCuts_eq (hd : ∀ name value, d.value? name = some value → IsText value)
    (htext : IsText text) : d.expandByCuts text = .ok (d.expand text) :=
  d.expandByCutsFrom_eq hd htext passLimit

/-- Values that are given as texts are texts, and so are the constants. -/
theorem isText_of_value? {values : Dict String String} {name value : Bytes}
    (h : (ofTexts values).value? name = some value) : IsText value := by
  unfold value? at h
  split at h
  · next v hv =>
    rw [Dict.lookup_entries, find?_ofTexts] at hv
    obtain ⟨-, y, -, -, rfl⟩ := hv
    cases h
    exact isText_encode y
  · obtain ⟨before, after, hconstants, -⟩ := List.lookup_eq_some_iff.mp h
    have hmem : (name, value) ∈ constants := by
      rw [hconstants]
      simp
    obtain ⟨e, -, he⟩ := List.mem_map.mp hmem
    rw [← (Prod.mk.inj he).2]
    exact isText_encode e.2

end Defines

/-- What is loaded is a text: it is written in the declaration, or in a file that passed the
check. -/
theorem Source.isText_of_load {files : Files} {base raw : String} {source : Bytes}
    (h : load files base raw = .ok source) : Utf8.IsText source := by
  unfold load at h
  split at h
  · unfold ofFile at h
    split at h
    · cases h
    · split at h
      · cases h
      · split at h
        · next hvalid =>
          cases h
          exact Utf8.isText_of_isValid hvalid
        · cases h
  · cases h
    exact Utf8.isText_encode raw

end ShaderPack
