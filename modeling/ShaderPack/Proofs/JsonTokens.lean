import ShaderPack.Json.Token
import Mathlib.Algebra.Ring.Int.Defs
import Mathlib.Data.List.Chain
import Mathlib.Data.List.TakeWhile

/-!
# JSON tokens read back

Writing tokens one behind the other and cutting the text gives the tokens back
(`Token.lex?_flatMap_render`), as long as no two of them run together. Numbers and words could:
where one of them stands, a mark has to follow (`Token.Joins`).

* `Token.readUnits_flatMap_escape`: a string is read back from its escapes, whatever characters it
  has.
* `Number.ofChars?_intNumeral`, `Number.value?_intNumeral`: the spelling of a whole number can be
  read, and means the number if that has at most 64 bits.
-/

namespace ShaderPack

namespace Json

/-! ### Strings -/

namespace Token

/-- A character is written as an escape of one letter, as an escape with its code, or as itself. -/
theorem escape_cases (c : Char) :
    (∃ e, escape c = ['\\', e] ∧ e ≠ 'u' ∧ letterEscape? e = some c) ∨
      (c.toNat < 32 ∧
        escape c =
          ['\\', 'u', '0', '0', Bytes.hexDigit (c.toNat / 16), Bytes.hexDigit (c.toNat % 16)]) ∨
      (escape c = [c] ∧ c ≠ '"' ∧ c ≠ '\\' ∧ 32 ≤ c.toNat) := by
  have hofNat : ∀ {n : Nat}, c.toNat = n → Char.ofNat n = c := fun h => h ▸ Char.ofNat_toNat c
  generalize hcs : escape c = cs
  unfold escape at hcs
  split_ifs at hcs with hquote hbackslash hn hr ht hb hf hcontrol
  · exact .inl ⟨'"', hcs.symm, by decide, by rw [hquote]; rfl⟩
  · exact .inl ⟨'\\', hcs.symm, by decide, by rw [hbackslash]; rfl⟩
  · exact .inl ⟨'n', hcs.symm, by decide, by rw [hn]; rfl⟩
  · exact .inl ⟨'r', hcs.symm, by decide, by rw [hr]; rfl⟩
  · exact .inl ⟨'t', hcs.symm, by decide, by rw [ht]; rfl⟩
  · exact .inl ⟨'b', hcs.symm, by decide, congrArg some (hofNat hb)⟩
  · exact .inl ⟨'f', hcs.symm, by decide, congrArg some (hofNat hf)⟩
  · have hbyte : (UInt8.ofNat c.toNat).toNat = c.toNat := by
      rw [UInt8.toNat_ofNat']
      omega
    rw [Bytes.hexByte, hbyte] at hcs
    exact .inr (.inl ⟨hcontrol, hcs.symm⟩)
  · exact .inr (.inr ⟨hcs.symm, hquote, hbackslash, Nat.le_of_not_lt hcontrol⟩)

/-- The digits of a control character's escape give its code. -/
theorem code?_hexDigit {n : Nat} (h : n < 32) :
    code? '0' '0' (Bytes.hexDigit (n / 16)) (Bytes.hexDigit (n % 16)) = some n := by
  have hall : ∀ n < 32, code? '0' '0' (Bytes.hexDigit (n / 16)) (Bytes.hexDigit (n % 16)) =
      some n := by decide
  exact hall n h

/-- A character is read back from the way it is written. -/
theorem readUnits_escape (found : List Unit16) (c : Char) (rest : List Char) :
    readUnits found (escape c ++ rest) = readUnits (.char c :: found) rest := by
  obtain ⟨e, hescape, hne, hletter⟩ | ⟨hcontrol, hescape⟩ |
    ⟨hescape, hquote, hbackslash, hprintable⟩ := escape_cases c
  · rw [hescape]
    simp [readUnits, hne, hletter]
  · have hchar : Unit16.ofCode c.toNat = .char c := by
      have hlow : ¬ 0xD800 ≤ c.toNat := by omega
      simp [Unit16.ofCode, hlow, Char.ofNat_toNat]
    rw [hescape]
    simp [readUnits, code?_hexDigit hcontrol, hchar]
  · rw [hescape, List.singleton_append, readUnits.eq_def]
    simp [hquote, hbackslash, Nat.not_lt.mpr hprintable]

/-- A string is read back up to its closing quote. -/
theorem readUnits_flatMap_escape (cs : List Char) (found : List Unit16) (rest : List Char) :
    readUnits found (cs.flatMap escape ++ '"' :: rest) =
      some (found.reverse ++ cs.map .char, rest) := by
  induction cs generalizing found with
  | nil => simp [readUnits.eq_def]
  | cons c cs ih => simp [readUnits_escape, ih]

/-- Characters that are no halves of a pair are left as they are. -/
theorem joinHalves?_map_char (cs found : List Char) :
    joinHalves? found (cs.map .char) = some (found.reverse ++ cs) := by
  induction cs generalizing found with
  | nil => simp [joinHalves?]
  | cons c cs ih => simp [joinHalves?, ih]

end Token

/-! ### Whole numbers -/

/-- The digits of a number are digits. -/
theorem isDigit_of_mem_digitsOf {n : Nat} {c : Char} (h : c ∈ digitsOf n) : isDigit c = true :=
  Nat.isDigit_of_mem_toDigits (by decide) (by decide) h

/-- A digit has the value that it was written for. -/
theorem digitValue_digitChar {d : Nat} (h : d < 10) : digitValue d.digitChar = d := by
  rw [digitValue, Nat.toNat_digitChar_of_lt_ten h]
  omega

/-- No zero leads the digits of a number that is not zero. -/
theorem exists_cons_digitsOf {n : Nat} (h : 0 < n) : ∃ c cs, digitsOf n = c :: cs ∧ c ≠ '0' := by
  induction n using Nat.strongRecOn with
  | ind n ih =>
      by_cases hlt : n < 10
      · refine ⟨n.digitChar, [], Nat.toDigits_of_lt_base hlt, fun hzero => ?_⟩
        have hvalue := digitValue_digitChar hlt
        rw [hzero] at hvalue
        exact absurd hvalue (Nat.ne_of_lt h)
      · obtain ⟨c, cs, hdigits, hne⟩ := ih (n / 10) (by omega) (by omega)
        refine ⟨c, cs ++ [(n % 10).digitChar], ?_, hne⟩
        rw [digitsOf, Nat.toDigits_of_base_le (by decide) (by omega)]
        rw [digitsOf] at hdigits
        rw [hdigits, List.cons_append]

/-- The digits of a number have no leading zero, so they can stand in a text. -/
theorem isWhole_digitsOf (n : Nat) : Numeral.isWhole (digitsOf n) = true := by
  by_cases hzero : n = 0
  · subst hzero
    rfl
  · obtain ⟨c, cs, hdigits, hne⟩ := exists_cons_digitsOf (Nat.pos_of_ne_zero hzero)
    rw [hdigits]
    unfold Numeral.isWhole
    split <;> simp_all

namespace Numeral

/-- The digits of a number make it their significand, as long as it fits. -/
theorem foldl_pushWhole_digitsOf {n : Nat} (h : n ≤ maxSignificand) :
    (digitsOf n).foldl Significand.pushWhole ⟨0, 0, false⟩ = ⟨n, 0, false⟩ := by
  induction n using Nat.strongRecOn with
  | ind n ih =>
      by_cases hlt : n < 10
      · rw [digitsOf, Nat.toDigits_of_lt_base hlt]
        simp [Significand.pushWhole, digitValue_digitChar hlt]
        omega
      · have hfront := ih (n / 10) (by omega) (by omega)
        have hlast : 10 * (n / 10) + digitValue (n % 10).digitChar = n := by
          rw [digitValue_digitChar (Nat.mod_lt _ (by decide))]
          omega
        rw [digitsOf] at hfront ⊢
        rw [Nat.toDigits_of_base_le (by decide) (by omega), List.foldl_append, hfront,
          List.foldl_cons, List.foldl_nil, Significand.pushWhole, hlast]
        simp [h]

end Numeral

namespace Number

/-- The spelling of a whole number can be read. -/
theorem ofChars?_intNumeral (n : Int) :
    Numeral.ofChars? (intNumeral n).render = some (intNumeral n) := by
  have htake : (digitsOf n.natAbs).takeWhile isDigit = digitsOf n.natAbs :=
    List.takeWhile_eq_self_iff.mpr fun c => isDigit_of_mem_digitsOf
  have hdrop : (digitsOf n.natAbs).dropWhile isDigit = [] :=
    List.dropWhile_eq_nil_iff.mpr fun c => isDigit_of_mem_digitsOf
  have hunsigned : ∀ negative, Numeral.unsigned? negative (digitsOf n.natAbs) =
      some ⟨negative, digitsOf n.natAbs, [], none⟩ := by
    intro negative
    rw [Numeral.unsigned?, htake, hdrop, if_pos (isWhole_digitsOf _)]
    rfl
  by_cases hneg : n < 0
  · simp [intNumeral, Numeral.render, hneg, Numeral.ofChars?, hunsigned]
  · simp only [intNumeral, Numeral.render, hneg, decide_false, Bool.false_eq_true, if_false,
      List.nil_append, List.isEmpty_nil, if_true, List.append_nil]
    unfold Numeral.ofChars?
    split
    · next rest hdigits =>
      have hminus : isDigit '-' = true := isDigit_of_mem_digitsOf (hdigits ▸ List.mem_cons_self)
      exact absurd hminus (by decide)
    · exact hunsigned false

/-- The spelling of a whole number of at most 64 bits means that number. -/
theorem value?_intNumeral {n : Int} (hlow : -2 ^ 63 ≤ n) (hhigh : n < 2 ^ 64) :
    (intNumeral n).value? = some (.int n) := by
  have hwhole : (intNumeral n).wholeSignificand = ⟨n.natAbs, 0, false⟩ :=
    Numeral.foldl_pushWhole_digitsOf (by rw [Numeral.maxSignificand, UInt64.size]; omega)
  have hint : (intNumeral n).int? = some n := by
    rw [Numeral.int?, hwhole]
    change (if !decide (n < 0) then some (n.natAbs : Int)
      else if n.natAbs = 0 || UInt64.size / 2 < n.natAbs then none
      else some (-(n.natAbs : Int))) = some n
    by_cases hneg : n < 0
    · have hfits : ¬ (n.natAbs = 0 ∨ UInt64.size / 2 < n.natAbs) := by
        rw [UInt64.size]
        omega
      have habs : -(n.natAbs : Int) = n := by omega
      rw [if_neg (by simp [hneg]), if_neg (by simpa using hfits), habs]
    · have habs : (n.natAbs : Int) = n := by omega
      rw [if_pos (by simp [hneg]), habs]
  rw [Numeral.value?, hint]

/-- The spelling of a whole number has no other characters than numbers have. -/
theorem isNumeric_of_mem_intNumeral {n : Int} {c : Char} (h : c ∈ (intNumeral n).render) :
    Token.isNumeric c = true := by
  simp only [intNumeral, Numeral.render, List.isEmpty_nil, if_true, List.append_nil,
    List.mem_append] at h
  obtain hsign | hdigit := h
  · by_cases hneg : n < 0
    · simp only [hneg, decide_true, if_true, List.mem_singleton] at hsign
      rw [hsign]
      rfl
    · simp [hneg] at hsign
  · simp [Token.isNumeric, isDigit_of_mem_digitsOf hdigit]

end Number

/-! ### Texts -/

namespace Token

/-- Whether a token is one of the marks between values. -/
def isMark : Token → Bool
  | openObject | closeObject | openArray | closeArray | comma | colon => true
  | _ => false

/-- The token is read back from its characters: a number that it is spelled by, or a string that has
a value. -/
def Readable : Token → Prop
  | num n => Numeral.ofChars? n.render = some n ∧ ∀ c ∈ n.render, isNumeric c
  | str s => s.isSome
  | _ => True

/-- Token `b` can stand right behind token `a`. The end of a mark or a string shows by itself;
numbers and words end where a mark begins. -/
def Joins (a b : Token) : Prop := a.isMark ∨ (∃ s, a = str s) ∨ b.isMark

/-- Nothing or a mark is at the front. -/
def Stops (cs : List Char) : Prop := ∀ c ∈ cs.head?, (mark? c).isSome

/-- A mark is one character, which is no blank and means this mark. -/
theorem exists_render_of_isMark {t : Token} (h : t.isMark) :
    ∃ c, t.render = [c] ∧ mark? c = some t ∧ isBlank c = false := by
  cases t <;> first | exact ⟨_, rfl, rfl, rfl⟩ | cases h

/-- No mark can stand in a number or in a word. -/
theorem not_numeric_of_mark {c : Char} (h : (mark? c).isSome) :
    isNumeric c = false ∧ isLetter c = false := by
  have hmarks : ['\x7b', '\x7d', '[', ']', ',', ':'].all (fun m => !isNumeric m && !isLetter m) =
      true := rfl
  have hmem : c ∈ ['\x7b', '\x7d', '[', ']', ',', ':'] := by
    simp only [mark?, apply_ite Option.isSome, Option.isSome_some, Option.isSome_none] at h
    simpa [or_iff_not_imp_left] using h
  simpa using List.all_eq_true.mp hmarks c hmem

/-- What a character with which a number or a word starts is not. -/
theorem not_blank_of_start {c : Char} (h : isNumeric c ∨ isLetter c) :
    isBlank c = false ∧ mark? c = none ∧ c ≠ '"' := by
  have hblanks : [' ', '\t', '\n', '\r', '"'].all (fun b => !isNumeric b && !isLetter b) = true :=
    rfl
  have hnot : c ∉ [' ', '\t', '\n', '\r', '"'] := by
    intro hmem
    have hblank : isNumeric c = false ∧ isLetter c = false := by
      simpa using List.all_eq_true.mp hblanks c hmem
    simp [hblank] at h
  simp only [List.mem_cons, List.not_mem_nil, or_false, not_or] at hnot
  refine ⟨by simp [isBlank, hnot], ?_, hnot.2.2.2.2⟩
  by_contra hmark
  simp [not_numeric_of_mark (Option.isSome_iff_ne_none.mpr hmark)] at h

/-- A run of characters ends where a mark begins. -/
theorem Stops.run {p : Char → Bool} (hp : ∀ c, (mark? c).isSome → p c = false) {cs rest : List Char}
    (hcs : ∀ c ∈ cs, p c) (hrest : Stops rest) :
    (cs ++ rest).takeWhile p = cs ∧ (cs ++ rest).dropWhile p = rest := by
  have hstop : rest.takeWhile p = [] ∧ rest.dropWhile p = rest := by
    cases rest with
    | nil => exact ⟨rfl, rfl⟩
    | cons c rest => simp [hp c (hrest c rfl)]
  rw [List.takeWhile_append_of_pos hcs, List.dropWhile_append_of_pos hcs, hstop.1, hstop.2,
    List.append_nil]
  exact ⟨rfl, rfl⟩

/-- A mark at the front is cut off as a token. -/
theorem lexFrom_mark {t : Token} (h : t.isMark) (found : List Token) (rest : List Char) :
    lexFrom found (t.render ++ rest) = lexFrom (t :: found) rest := by
  obtain ⟨c, hrender, hmark, hblank⟩ := exists_render_of_isMark h
  rw [hrender, List.singleton_append, lexFrom, hmark, hblank]
  simp

/-- So is a string that has a value, whatever comes behind it. -/
theorem lexFrom_str {s : Option String} (h : (str s).Readable) (found : List Token)
    (rest : List Char) :
    lexFrom found (render (str s) ++ rest) = lexFrom (str s :: found) rest := by
  obtain ⟨s, rfl⟩ := Option.isSome_iff_exists.mp h
  have hread := readUnits_flatMap_escape s.toList [] rest
  rw [render, Option.getD_some, quote, List.cons_append, List.append_assoc, List.singleton_append,
    lexFrom]
  simp only [show isBlank '"' = false from rfl, show mark? '"' = none from rfl, Bool.false_eq_true,
    if_false, if_true]
  split
  · next hnone =>
    rw [hread] at hnone
    cases hnone
  · next us after hsome =>
    obtain ⟨rfl, rfl⟩ := Prod.mk.inj (Option.some.inj (hsome.symm.trans hread))
    simp [joinHalves?_map_char]

/-- The spelling of a number starts with a digit or a minus sign. -/
theorem exists_cons_of_ofChars? {cs : List Char} {n : Numeral} (h : Numeral.ofChars? cs = some n) :
    ∃ c rest, cs = c :: rest ∧ (isDigit c || c = '-') = true := by
  unfold Numeral.ofChars? at h
  split at h
  · next rest => exact ⟨'-', rest, rfl, rfl⟩
  · cases cs with
    | nil => cases h
    | cons c rest =>
        refine ⟨c, rest, rfl, ?_⟩
        cases hdigit : isDigit c with
        | true => rfl
        | false =>
            -- there is no digit at the front
            simp [Numeral.unsigned?, hdigit, Numeral.isWhole] at h

/-- So is a number, if nothing or a mark comes behind it. -/
theorem lexFrom_num {n : Numeral} (h : (num n).Readable) (found : List Token) {rest : List Char}
    (hrest : Stops rest) :
    lexFrom found (render (num n) ++ rest) = lexFrom (num n :: found) rest := by
  obtain ⟨hspelled, hnumeric⟩ := h
  obtain ⟨c, cs, hcs, hstart⟩ := exists_cons_of_ofChars? hspelled
  rw [hcs] at hspelled hnumeric
  obtain ⟨hblank, hmark, hquote⟩ := not_blank_of_start (.inl (hnumeric c List.mem_cons_self))
  obtain ⟨htake, hdrop⟩ := hrest.run (fun c hc => (not_numeric_of_mark hc).1)
    fun x hx => hnumeric x (List.mem_cons_of_mem c hx)
  rw [render, hcs, List.cons_append, lexFrom, hblank, hmark, htake, hdrop, hspelled]
  simp [hquote, hstart]

/-- So is a word, if nothing or a mark comes behind it. -/
theorem lexFrom_word {t : Token} {c : Char} {cs : List Char} (hrender : t.render = c :: cs)
    (hletters : (c :: cs).all isLetter = true) (hstart : (isDigit c || c = '-') = false)
    (hword : word? (c :: cs) = some t) (found : List Token) {rest : List Char}
    (hrest : Stops rest) :
    lexFrom found (t.render ++ rest) = lexFrom (t :: found) rest := by
  rw [List.all_eq_true] at hletters
  have hletter : isLetter c = true := hletters c List.mem_cons_self
  obtain ⟨hblank, hmark, hquote⟩ := not_blank_of_start (.inr hletter)
  obtain ⟨htake, hdrop⟩ := hrest.run (fun c hc => (not_numeric_of_mark hc).2)
    fun x hx => hletters x (List.mem_cons_of_mem c hx)
  rw [hrender, List.cons_append, lexFrom, hblank, hmark, htake, hdrop, hword]
  simp [hquote, hstart, hletter]

/-- A token is cut off the front of a text, if what follows cannot belong to it. -/
theorem lexFrom_render {t : Token} (h : t.Readable) (found : List Token) {rest : List Char}
    (hrest : t.isMark ∨ (∃ s, t = str s) ∨ Stops rest) :
    lexFrom found (t.render ++ rest) = lexFrom (t :: found) rest := by
  obtain hmark | ⟨s, rfl⟩ | hstops := hrest
  · exact lexFrom_mark hmark found rest
  · exact lexFrom_str h found rest
  · cases t with
    | null => exact lexFrom_word rfl rfl rfl rfl found hstops
    | bool b => cases b <;> exact lexFrom_word rfl rfl rfl rfl found hstops
    | num n => exact lexFrom_num h found hstops
    | str s => exact lexFrom_str h found rest
    | _ => exact lexFrom_mark rfl found rest

/-- The text of tokens that start with a mark stops what is in front of it. -/
theorem stops_flatMap_render {t : Token} {ts : List Token} (h : t.isMark) :
    Stops ((t :: ts).flatMap render) := by
  obtain ⟨c, hrender, hmark, -⟩ := exists_render_of_isMark h
  intro x hx
  rw [List.flatMap_cons, hrender, List.singleton_append, List.head?_cons, Option.mem_some_iff] at hx
  rw [← hx, hmark]
  rfl

/-- The text of tokens is cut into these tokens, behind those that have been found. -/
theorem lexFrom_flatMap_render {ts : List Token} (hread : ∀ t ∈ ts, t.Readable)
    (hjoin : ts.IsChain Joins) (found : List Token) :
    lexFrom found (ts.flatMap render) = some (found.reverse ++ ts) := by
  induction ts generalizing found with
  | nil => rw [List.flatMap_nil, lexFrom, List.append_nil]
  | cons t ts ih =>
      rw [List.forall_mem_cons] at hread
      have hrest : t.isMark ∨ (∃ s, t = str s) ∨ Stops (ts.flatMap render) := by
        cases ts with
        | nil => exact .inr (.inr fun c hc => by cases hc)
        | cons u ts =>
            obtain hmark | hstr | hnext := (List.isChain_cons_cons.mp hjoin).1
            · exact .inl hmark
            · exact .inr (.inl hstr)
            · exact .inr (.inr (stops_flatMap_render hnext))
      rw [List.flatMap_cons, lexFrom_render hread.1 found hrest, ih hread.2 hjoin.tail]
      simp

/-- **Tokens are read back** from the text in which they stand one behind the other. -/
theorem lex?_flatMap_render {ts : List Token} (hread : ∀ t ∈ ts, t.Readable)
    (hjoin : ts.IsChain Joins) : lex? (ts.flatMap render) = some ts :=
  lexFrom_flatMap_render hread hjoin []

end Token

end Json

end ShaderPack
