import ShaderPack.CommandLine.Arguments
import Mathlib.Data.List.Forall2

/-!
# The grammar of command lines

Which arguments are accepted can be said without a reader. An argument list is a row of items: a
flag with its value, whatever the value looks like, or a switch (`CommandLine.Spells`). Values may
look like flags, so where an item starts depends on all items before it. What the items say is the
last value of every flag, and which switches there are (`CommandLine.Means`).

* `Means.step`, `Means.run`: the reader goes over an item, over a row of items, and what it has so
  far is what these items say.
* `exists_begins`: every argument list is a row of items, and behind it nothing, or something that
  is no item (`Misfit`).
* `CommandLine.arguments_exact`: the reader accepts just the rows of items, gives what they say,
  whatever the order of items of different flags, and refuses others with the error of the first
  misfit.
-/

namespace ShaderPack

/-! ### Names of modes -/

/-- The characters are the same, or one ASCII letter in upper and in lower case. -/
def SameLetter (c d : Char) : Prop :=
  c = d ∨ ∃ i < 26, (c = Char.ofNat ('A'.toNat + i) ∧ d = Char.ofNat ('a'.toNat + i)) ∨
    (c = Char.ofNat ('a'.toNat + i) ∧ d = Char.ofNat ('A'.toNat + i))

/-- The texts are the same but for the case of ASCII letters. -/
def SameIgnoringCase (s t : String) : Prop := List.Forall₂ SameLetter s.toList t.toList

/-- The lower case of a capital letter is the small letter at the same place of the alphabet. -/
theorem toLower_upper :
    ∀ i < 26, (Char.ofNat ('A'.toNat + i)).toLower = Char.ofNat ('a'.toNat + i) := by decide

/-- A small letter is its own lower case. -/
theorem toLower_lower :
    ∀ i < 26, (Char.ofNat ('a'.toNat + i)).toLower = Char.ofNat ('a'.toNat + i) := by decide

/-- Small letters at different places of the alphabet differ. -/
theorem lower_inj :
    ∀ i < 26, ∀ j < 26, Char.ofNat ('a'.toNat + i) = Char.ofNat ('a'.toNat + j) → i = j := by decide

/-- Only the letters from `A` to `Z` have another lower case. -/
theorem toLower_cases (c : Char) : c.toLower = c ∨ ∃ i < 26, c = Char.ofNat ('A'.toNat + i) := by
  unfold Char.toLower
  split
  · next h =>
    have hlo : 'A'.toNat ≤ c.toNat := h.1
    have hhi : c.toNat < 'A'.toNat + 26 := Nat.lt_succ_of_le h.2
    refine .inr ⟨c.toNat - 'A'.toNat, Nat.sub_lt_left_of_lt_add hlo hhi, ?_⟩
    rw [Nat.add_sub_cancel' hlo, Char.ofNat_toNat]
  · exact .inl rfl

/-- Two characters are the same letter exactly if they have the same lower case. -/
theorem sameLetter_iff {c d : Char} : SameLetter c d ↔ c.toLower = d.toLower := by
  constructor
  · rintro (rfl | ⟨i, hi, ⟨rfl, rfl⟩ | ⟨rfl, rfl⟩⟩)
    · rfl
    · rw [toLower_upper i hi, toLower_lower i hi]
    · rw [toLower_upper i hi, toLower_lower i hi]
  · intro h
    obtain hc | ⟨i, hi, rfl⟩ := toLower_cases c
    · obtain hd | ⟨j, hj, rfl⟩ := toLower_cases d
      · exact .inl (by rw [← hc, h, hd])
      · rw [hc, toLower_upper j hj] at h
        exact .inr ⟨j, hj, .inr ⟨h, rfl⟩⟩
    · obtain hd | ⟨j, hj, rfl⟩ := toLower_cases d
      · rw [hd, toLower_upper i hi] at h
        exact .inr ⟨i, hi, .inl ⟨rfl, h.symm⟩⟩
      · rw [toLower_upper i hi, toLower_upper j hj] at h
        exact .inl (by rw [lower_inj i hi j hj h])

namespace Mode

/-- Two texts differ in case only exactly if they have the same lower case. -/
theorem lowerCase_eq_iff {s t : String} : lowerCase s = lowerCase t ↔ SameIgnoringCase s t := by
  have hletter : SameLetter = fun c d => c.toLower = d.toLower :=
    funext₂ fun _ _ => propext sameLetter_iff
  rw [lowerCase, lowerCase, String.ofList_inj, ← List.forall₂_eq_eq_eq, List.forall₂_map_left_iff,
    List.forall₂_map_right_iff, SameIgnoringCase, hletter]

/-- The names of the modes are in lower case already. -/
theorem lowerCase_name (m : Mode) : lowerCase m.name = m.name := by
  cases m <;> rfl

/-- A mode is found under its name and under nothing else. -/
theorem ofName?_eq_some {s : String} {m : Mode} : ofName? s = some m ↔ s = m.name := by
  unfold ofName?
  cases m <;> split_ifs <;> simp_all [name]

/-- A mode is known by its name, whatever the case of the letters. -/
theorem parse_eq_ok {s : String} {m : Mode} : parse s = .ok m ↔ SameIgnoringCase s m.name := by
  rw [← lowerCase_eq_iff, lowerCase_name, ← ofName?_eq_some, parse]
  cases ofName? (lowerCase s) <;> simp

/-- A text is refused as a mode exactly if it names none in any case; the error has the text in
lower case. -/
theorem parse_eq_error {s name : String} :
    parse s = .error name ↔ (∀ m : Mode, ¬ SameIgnoringCase s m.name) ∧ name = lowerCase s := by
  simp only [← parse_eq_ok]
  unfold parse
  cases ofName? (lowerCase s) with
  | none => simp [eq_comm]
  | some m => simp

end Mode

/-! ### Flags -/

/-- How a flag that takes a value is spelled. -/
def ValueFlag.spelling : ValueFlag → String
  | program => "--program"
  | out => "--out"
  | baseDir => "--base-dir"
  | options => "--options"
  | mode => "--mode"

/-- How a switch can be spelled. -/
def Switch.spellings : Switch → List String
  | validate => ["--validate"]
  | summary => ["--summary"]
  | disassemble => ["--disassemble"]
  | verbose => ["--verbose", "-v"]

/-- A flag has exactly one spelling. -/
theorem ValueFlag.ofArgument?_eq_some {arg : String} {flag : ValueFlag} :
    ofArgument? arg = some flag ↔ arg = flag.spelling := by
  constructor
  · intro h
    unfold ofArgument? at h
    split_ifs at h with hprogram hout hbaseDir hoptions hmode <;> cases h <;> assumption
  · rintro rfl
    cases flag <;> rfl

/-- Every spelling of a switch is known, and none is that of a flag that takes a value. -/
theorem Switch.ofArgument?_of_mem {arg : String} {s : Switch} (h : arg ∈ s.spellings) :
    ofArgument? arg = some s ∧ ValueFlag.ofArgument? arg = none := by
  have hall : ∀ arg ∈ s.spellings, ofArgument? arg = some s ∧ ValueFlag.ofArgument? arg = none := by
    cases s <;> decide
  exact hall arg h

/-- A switch is found under each of its spellings and under nothing else. -/
theorem Switch.ofArgument?_eq_some {arg : String} {s : Switch} :
    ofArgument? arg = some s ↔ arg ∈ s.spellings := by
  refine ⟨fun h => ?_, fun h => (ofArgument?_of_mem h).1⟩
  unfold ofArgument? at h
  split_ifs at h with hvalidate hsummary hdisassemble hverbose <;> cases h <;> simp_all [spellings]

/-! ### Items -/

namespace CommandLine

/-- A piece of a command line. -/
inductive Item where
  /-- A flag with its value. -/
  | value (flag : ValueFlag) (text : String)
  /-- A switch. -/
  | switch (s : Switch)
  deriving DecidableEq, Repr

/-- The flag of an item. -/
def Item.flag : Item → ValueFlag ⊕ Switch
  | value flag _ => .inl flag
  | switch s => .inr s

/-- The value that an item has for a flag. -/
def Item.text? (flag : ValueFlag) : Item → Option String
  | value other text => if other = flag then some text else none
  | switch _ => none

/-- The arguments spell the item. What follows a flag is its value, whatever it looks like; only the
value of the mode has to be the name of one. -/
inductive Spells : List String → Item → Prop
  | value {flag : ValueFlag} {text : String}
      (h : flag = .mode → ∃ m : Mode, SameIgnoringCase text m.name) :
      Spells [flag.spelling, text] (.value flag text)
  | switch {arg : String} {s : Switch} (h : arg ∈ s.spellings) : Spells [arg] (.switch s)

/-- The arguments start with parts that spell the items, and `rest` is what is behind these. -/
def Begins (args : List String) (parts : List (List String)) (items : List Item)
    (rest : List String) : Prop :=
  parts.flatten ++ rest = args ∧ List.Forall₂ Spells parts items

/-- The arguments are parts that spell the items. -/
def Splits (args : List String) (parts : List (List String)) (items : List Item) : Prop :=
  parts.flatten = args ∧ List.Forall₂ Spells parts items

/-- The arguments do not start with an item, and this is the error. -/
inductive Misfit : List String → ArgumentError → Prop
  /-- The first argument is no flag. -/
  | unknown {arg : String} {rest : List String} (hvalue : ∀ flag : ValueFlag, arg ≠ flag.spelling)
      (hswitch : ∀ s : Switch, arg ∉ s.spellings) : Misfit (arg :: rest) (.unknownArgument arg)
  /-- A flag that takes a value is the last argument. -/
  | missing (flag : ValueFlag) : Misfit [flag.spelling] (.missingValue flag.spelling)
  /-- The value of the mode is the name of none. -/
  | mode {text : String} {rest : List String} (h : ∀ m : Mode, ¬ SameIgnoringCase text m.name) :
      Misfit (ValueFlag.mode.spelling :: text :: rest) (.unknownMode (Mode.lowerCase text))

/-- The value of the last item with this flag. -/
def lastText? (flag : ValueFlag) (items : List Item) : Option String :=
  (items.filterMap (Item.text? flag)).getLast?

/-- The command line holds what the items say: of every flag the last value, and the switches that
there are. -/
structure Means (items : List Item) (c : CommandLine) : Prop where
  program : c.program = lastText? .program items
  out : c.out = lastText? .out items
  baseDir : c.baseDir = lastText? .baseDir items
  options : c.options = lastText? .options items
  mode : ∀ m, c.mode = some m ↔ ∃ text, lastText? .mode items = some text ∧
      SameIgnoringCase text m.name
  validate : c.validate = true ↔ .switch .validate ∈ items
  summary : c.summary = true ↔ .switch .summary ∈ items
  disassemble : c.disassemble = true ↔ .switch .disassemble ∈ items
  verbose : c.verbose = true ↔ .switch .verbose ∈ items

variable {args : List String} {part : List String} {parts parts' : List (List String)} {x y : Item}
  {items items' : List Item} {rest : List String} {c c' : CommandLine} {e : ArgumentError}

/-- The command line that the reader starts with is what no items say. -/
theorem means_empty : Means [] empty := by
  constructor <;> simp [empty, lastText?]

/-- A command line can hold what the items say in one way only. -/
theorem Means.unique (h : Means items c) (h' : Means items c') : c = c' := by
  have hmode : c.mode = c'.mode := Option.ext fun m => (h.mode m).trans (h'.mode m).symm
  have hvalidate := Bool.eq_iff_iff.mpr (h.validate.trans h'.validate.symm)
  have hsummary := Bool.eq_iff_iff.mpr (h.summary.trans h'.summary.symm)
  have hdisassemble := Bool.eq_iff_iff.mpr (h.disassemble.trans h'.disassemble.symm)
  have hverbose := Bool.eq_iff_iff.mpr (h.verbose.trans h'.verbose.symm)
  have hprogram := h.program.trans h'.program.symm
  have hout := h.out.trans h'.out.symm
  have hbaseDir := h.baseDir.trans h'.baseDir.symm
  have hoptions := h.options.trans h'.options.symm
  cases c
  cases c'
  simp only at hmode hvalidate hsummary hdisassemble hverbose hprogram hout hbaseDir hoptions
  simp only [hmode, hvalidate, hsummary, hdisassemble, hverbose, hprogram, hout, hbaseDir, hoptions]

/-! ### The reader goes over items -/

/-- The last value of a flag, when one more item is there: that of the item if it has one, else the
one before. -/
theorem lastText?_concat (flag : ValueFlag) (items : List Item) (x : Item) :
    lastText? flag (items ++ [x]) = (x.text? flag).or (lastText? flag items) := by
  rw [lastText?, List.filterMap_append, List.getLast?_append, lastText?]
  cases h : x.text? flag <;> simp [h]

/-- What is said after one more flag with its value. -/
theorem Means.setValue {flag : ValueFlag} {text : String} (h : Means items c)
    (hset : c.setValue flag text = .ok c') : Means (items ++ [.value flag text]) c' := by
  cases flag with
  | mode =>
      unfold CommandLine.setValue at hset
      dsimp only at hset
      split at hset
      · next m hm =>
        have hname : ∀ other : Mode, SameIgnoringCase text other.name ↔ m = other := fun other => by
          rw [← Mode.parse_eq_ok, hm, Except.ok.injEq]
        cases hset
        constructor <;>
          simp [lastText?_concat, Item.text?, hname, h.program, h.out, h.baseDir, h.options,
          h.validate, h.summary, h.disassemble, h.verbose]
      · cases hset
  | _ =>
      cases hset
      constructor <;>
        simp [lastText?_concat, Item.text?, h.program, h.out, h.baseDir, h.options, h.mode,
        h.validate, h.summary, h.disassemble, h.verbose]

/-- What is said after one more switch. -/
theorem Means.setSwitch (h : Means items c) (s : Switch) :
    Means (items ++ [.switch s]) (c.setSwitch s) := by
  cases s <;> constructor <;>
    simp [CommandLine.setSwitch, lastText?_concat, Item.text?, h.program, h.out, h.baseDir,
    h.options, h.mode, h.validate, h.summary, h.disassemble, h.verbose]

/-- A value is refused only if it is no name of a mode and has to be one. -/
theorem setValue_eq_error {flag : ValueFlag} {text : String} :
    c.setValue flag text = .error e ↔
    flag = .mode ∧ (∀ m : Mode, ¬ SameIgnoringCase text m.name) ∧
    e = .unknownMode (Mode.lowerCase text) := by
  cases flag with
  | mode =>
      unfold CommandLine.setValue
      dsimp only
      cases hm : Mode.parse text with
      | ok m =>
          simp only [reduceCtorEq, true_and, false_iff, not_and]
          exact fun hnone => absurd (Mode.parse_eq_ok.mp hm) (hnone m)
      | error name =>
          obtain ⟨hnone, rfl⟩ := Mode.parse_eq_error.mp hm
          simp [hnone, eq_comm]
  | _ => simp [CommandLine.setValue]

/-- **One item.** The reader goes over an item, and then has what all items up to it say. -/
theorem Means.step (h : Means items c) (hpart : Spells part x) :
    ∃ c', Means (items ++ [x]) c' ∧ ∀ rest, parseFrom c (part ++ rest) = parseFrom c' rest := by
  cases hpart with
  | @value flag text hmode =>
      cases hset : c.setValue flag text with
      | error e =>
          obtain ⟨hflag, hnone, -⟩ := setValue_eq_error.mp hset
          obtain ⟨m, hm⟩ := hmode hflag
          exact absurd hm (hnone m)
      | ok c' =>
          refine ⟨c', h.setValue hset, fun rest => ?_⟩
          rw [List.cons_append, parseFrom, ValueFlag.ofArgument?_eq_some.mpr rfl, List.cons_append]
          simp only [hset, List.nil_append]
  | @switch arg s hs =>
      obtain ⟨hswitch, hvalue⟩ := Switch.ofArgument?_of_mem hs
      refine ⟨c.setSwitch s, h.setSwitch s, fun rest => ?_⟩
      rw [List.cons_append, parseFrom, hvalue, hswitch]
      rfl

/-- **A row of items.** The reader goes over all of them, and then has what they say. -/
theorem Means.run (h : Means items c) (hparts : List.Forall₂ Spells parts items') :
    ∃ c', Means (items ++ items') c' ∧
    ∀ rest, parseFrom c (parts.flatten ++ rest) = parseFrom c' rest := by
  induction hparts generalizing items c with
  | nil => exact ⟨c, by rwa [List.append_nil], fun rest => rfl⟩
  | @cons part x parts items' hpart _ ih =>
      obtain ⟨next, hnext, hread⟩ := h.step hpart
      obtain ⟨c', hc', hread'⟩ := ih hnext
      refine ⟨c', by rwa [List.append_assoc] at hc', fun rest => ?_⟩
      rw [List.flatten_cons, List.append_assoc, hread, hread']

/-- What is no item is refused. -/
theorem Misfit.parseFrom_eq (h : Misfit rest e) (c : CommandLine) :
    parseFrom c rest = .error e := by
  cases h with
  | @unknown arg rest hvalue hswitch =>
      have hnone : ValueFlag.ofArgument? arg = none :=
        Option.eq_none_iff_forall_ne_some.mpr fun flag h =>
          hvalue flag (ValueFlag.ofArgument?_eq_some.mp h)
      have hnone' : Switch.ofArgument? arg = none :=
        Option.eq_none_iff_forall_ne_some.mpr fun s h => hswitch s (Switch.ofArgument?_eq_some.mp h)
      rw [parseFrom, hnone, hnone']
  | missing flag => rw [parseFrom, ValueFlag.ofArgument?_eq_some.mpr rfl]
  | @mode text rest hnone =>
      rw [parseFrom, ValueFlag.ofArgument?_eq_some.mpr rfl]
      simp only [setValue_eq_error.mpr ⟨rfl, hnone, rfl⟩]

/-- An item in front of a row of items makes a longer row. -/
theorem Begins.cons (hpart : Spells part x) (h : Begins args parts items rest) :
    Begins (part ++ args) (part :: parts) (x :: items) rest := by
  obtain ⟨rfl, hparts⟩ := h
  exact ⟨by rw [List.flatten_cons, List.append_assoc], .cons hpart hparts⟩

/-- Every argument list is a row of items with nothing behind it, or with something that is no
item. -/
theorem exists_begins (c : CommandLine) (args : List String) :
    ∃ parts items rest, Begins args parts items rest ∧
    (rest = [] ∨ ∃ e, Misfit rest e) := by
  -- on the steps of the reader, whatever it has so far
  fun_induction parseFrom c args with
  | case1 => exact ⟨[], [], [], ⟨rfl, .nil⟩, .inl rfl⟩
  | case2 c arg flag hflag =>
      obtain rfl := ValueFlag.ofArgument?_eq_some.mp hflag
      exact ⟨[], [], _, ⟨rfl, .nil⟩, .inr ⟨_, .missing flag⟩⟩
  | case3 c arg flag hflag value rest e hset =>
      obtain rfl := ValueFlag.ofArgument?_eq_some.mp hflag
      obtain ⟨rfl, hnone, rfl⟩ := setValue_eq_error.mp hset
      exact ⟨[], [], _, ⟨rfl, .nil⟩, .inr ⟨_, .mode hnone⟩⟩
  | case4 c arg flag hflag value rest c' hset ih =>
      obtain rfl := ValueFlag.ofArgument?_eq_some.mp hflag
      obtain ⟨parts, items, rest, hbegins, hrest⟩ := ih
      refine ⟨_, _, rest, hbegins.cons (.value ?_), hrest⟩
      rintro rfl
      by_contra hnone
      rw [not_exists] at hnone
      cases hset.symm.trans (setValue_eq_error.mpr ⟨rfl, hnone, rfl⟩)
  | case5 c arg rest hvalue s hs ih =>
      obtain ⟨parts, items, rest, hbegins, hrest⟩ := ih
      exact ⟨_, _, rest, hbegins.cons (.switch (Switch.ofArgument?_eq_some.mp hs)), hrest⟩
  | case6 c arg rest hvalue hswitch =>
      refine ⟨[], [], _, ⟨rfl, .nil⟩, .inr ⟨_, .unknown ?_ ?_⟩⟩
      · rintro flag rfl
        cases hvalue.symm.trans (ValueFlag.ofArgument?_eq_some.mpr rfl)
      · intro s hs
        cases hswitch.symm.trans (Switch.ofArgument?_eq_some.mpr hs)

/-! ### Order -/

/-- One row of parts is the other with items of different flags moved past each other. -/
inductive Reorders : List (List String) → List (List String) → Prop
  | nil : Reorders [] []
  | cons (part : List String) {parts parts' : List (List String)} (h : Reorders parts parts') :
      Reorders (part :: parts) (part :: parts')
  | swap {part part' : List String} {x y : Item} (hx : Spells part x) (hy : Spells part' y)
      (hflag : x.flag ≠ y.flag)
      (parts : List (List String)) : Reorders (part :: part' :: parts) (part' :: part :: parts)
  | trans {parts parts' parts'' : List (List String)} (h : Reorders parts parts')
      (h' : Reorders parts' parts'') : Reorders parts parts''

/-- Arguments spell one item at most. -/
theorem Spells.item_unique (hx : Spells part x) (hy : Spells part y) : x = y := by
  cases hx with
  | value _ =>
      generalize hflag : ValueFlag.spelling _ = arg at hy
      cases hy with
      | value _ =>
          have hsame := ValueFlag.ofArgument?_eq_some.mpr hflag.symm
          rw [ValueFlag.ofArgument?_eq_some.mpr rfl] at hsame
          cases hsame
          rfl
  | switch hs =>
      cases hy with
      | switch hs' =>
          have hsame :=
            (Switch.ofArgument?_of_mem hs).1.symm.trans (Switch.ofArgument?_of_mem hs').1
          cases hsame
          rfl

/-- Swapping items of different flags does not change the row of items of any one flag. -/
theorem filter_swap (h : x.flag ≠ y.flag) (items : List Item) (flag : ValueFlag ⊕ Switch) :
    (y :: x :: items).filter (fun z => z.flag = flag) = (x :: y :: items).filter fun z =>
      z.flag = flag := by
  by_cases hx : x.flag = flag
  · have hy : ¬ y.flag = flag := fun hy => h (hx.trans hy.symm)
    simp [hx, hy]
  · simp [List.filter_cons, hx]

/-- The items of each flag keep their order. -/
theorem Reorders.exists_items (h : Reorders parts parts')
    (hparts : List.Forall₂ Spells parts items) :
    ∃ items', List.Forall₂ Spells parts' items' ∧
      ∀ flag, items'.filter (fun x => x.flag = flag) = items.filter fun x => x.flag = flag := by
  induction h generalizing items with
  | nil => exact ⟨items, hparts, fun _ => rfl⟩
  | cons part _ ih =>
      cases hparts with
      | @cons _ x _ items hpart hparts =>
          obtain ⟨items', hparts', hsame⟩ := ih hparts
          exact ⟨x :: items', .cons hpart hparts',
            fun flag => by simp only [List.filter_cons, hsame]⟩
  | @swap part part' x y hx hy hflag parts =>
      obtain _ | ⟨hpart, hparts⟩ := hparts
      obtain _ | ⟨hpart', hparts⟩ := hparts
      obtain rfl := hpart.item_unique hx
      obtain rfl := hpart'.item_unique hy
      exact ⟨_, .cons hpart' (.cons hpart hparts), filter_swap hflag _⟩
  | trans _ _ ih ih' =>
      obtain ⟨items', hparts', hsame⟩ := ih hparts
      obtain ⟨items'', hparts'', hsame'⟩ := ih' hparts'
      exact ⟨items'', hparts'', fun flag => (hsame' flag).trans (hsame flag)⟩

/-- The last value of a flag depends on the items of that flag only. -/
theorem lastText?_filter (flag : ValueFlag) (items : List Item) :
    lastText? flag (items.filter fun x => x.flag = .inl flag) = lastText? flag items := by
  rw [lastText?, List.filterMap_filter, lastText?]
  congr 1
  refine List.filterMap_congr fun x _ => ?_
  cases x <;> simp [Item.flag, Item.text?]

/-- What items say depends on the items of each flag alone. -/
theorem Means.congr (h : Means items c)
    (hsame : ∀ flag, items'.filter (fun x => x.flag = flag) = items.filter fun x => x.flag = flag) :
    Means items' c := by
  have hlast : ∀ flag, lastText? flag items' = lastText? flag items := fun flag => by
    rw [← lastText?_filter flag items', hsame, lastText?_filter]
  have hmem : ∀ s, .switch s ∈ items' ↔ .switch s ∈ items := fun s => by
    have hs := congrArg (Item.switch s ∈ ·) (hsame (.inr s))
    simpa [Item.flag] using hs
  constructor <;> simp only [hlast, hmem]
  exacts [h.program, h.out, h.baseDir, h.options, h.mode, h.validate, h.summary, h.disassemble,
    h.verbose]

/-! ### All argument lists -/

/-- A row of items is accepted, and the command line holds what they say. -/
theorem Splits.exists_means (h : Splits args parts items) :
    ∃ c, Means items c ∧ parse args = .ok c := by
  obtain ⟨rfl, hparts⟩ := h
  obtain ⟨c, hmeans, hread⟩ := means_empty.run hparts
  have hend := hread []
  rw [List.append_nil, parseFrom.eq_1] at hend
  exact ⟨c, hmeans, hend⟩

/-- What a row of items gives is the one command line that holds what they say. -/
theorem Splits.parse_eq_ok (h : Splits args parts items) : parse args = .ok c ↔ Means items c := by
  obtain ⟨c', hmeans, hparse⟩ := h.exists_means
  rw [hparse, Except.ok.injEq]
  exact ⟨fun hc => hc ▸ hmeans, hmeans.unique⟩

/-- A misfit behind a row of items is refused with its own error, whatever the items are. -/
theorem Begins.parse_eq_error (h : Begins args parts items rest) (hrest : Misfit rest e) :
    parse args = .error e := by
  obtain ⟨rfl, hparts⟩ := h
  obtain ⟨c, -, hread⟩ := means_empty.run hparts
  rw [parse, hread, hrest.parseFrom_eq]

/-- The two ways in which reading can end. -/
theorem splits_or_misfit (args : List String) : (∃ parts items, Splits args parts items) ∨
    ∃ parts items rest e, Begins args parts items rest ∧ Misfit rest e := by
  obtain ⟨parts, items, rest, hbegins, rfl | ⟨e, hmisfit⟩⟩ := exists_begins empty args
  · rw [Begins, List.append_nil] at hbegins
    exact .inl ⟨parts, items, hbegins⟩
  · exact .inr ⟨parts, items, rest, e, hbegins, hmisfit⟩

/-- Arguments are accepted exactly if they are a row of items. -/
theorem exists_ok_iff : (∃ c, parse args = .ok c) ↔ ∃ parts items, Splits args parts items := by
  constructor
  · rintro ⟨c, hparse⟩
    obtain hsplits | ⟨_, _, _, e, hbegins, hmisfit⟩ := splits_or_misfit args
    · exact hsplits
    · cases hparse.symm.trans (hbegins.parse_eq_error hmisfit)
  · rintro ⟨parts, items, hsplits⟩
    obtain ⟨c, -, hparse⟩ := hsplits.exists_means
    exact ⟨c, hparse⟩

/-- Arguments are refused exactly if there is a misfit behind a row of items; the error is that of
the misfit. -/
theorem parse_eq_error_iff :
    parse args = .error e ↔ ∃ parts items rest, Begins args parts items rest ∧ Misfit rest e := by
  constructor
  · intro hparse
    obtain ⟨_, _, hsplits⟩ | ⟨parts, items, rest, e', hbegins, hmisfit⟩ := splits_or_misfit args
    · obtain ⟨c, -, hparse'⟩ := hsplits.exists_means
      cases hparse.symm.trans hparse'
    · cases hparse.symm.trans (hbegins.parse_eq_error hmisfit)
      exact ⟨parts, items, rest, hbegins, hmisfit⟩
  · rintro ⟨parts, items, rest, hbegins, hmisfit⟩
    exact hbegins.parse_eq_error hmisfit

/-- The order of items of different flags does not matter. -/
theorem Reorders.parse_eq (h : Reorders parts parts') (hsplits : Splits args parts items) :
    parse parts'.flatten = parse args := by
  obtain ⟨c, hmeans, hparse⟩ := hsplits.exists_means
  obtain ⟨items', hparts', hsame⟩ := h.exists_items hsplits.2
  have hsplits' : Splits parts'.flatten parts' items' := ⟨rfl, hparts'⟩
  rw [hparse, hsplits'.parse_eq_ok]
  exact hmeans.congr hsame

/-- **Arguments are read exactly.** They are accepted if and only if they are a row of items, each a
flag with any value behind it (for the mode, the name of one in upper or lower case) or a switch.
The command line then holds of every flag the last value, and the switches that are there. So
nothing changes if items of different flags are moved past each other. Any other arguments are a row
of items with a misfit behind it, and the error is that of the misfit. -/
theorem arguments_exact (args : List String) :
    ((∃ c, parse args = .ok c) ↔ ∃ parts items, Splits args parts items) ∧
    (∀ parts items, Splits args parts items →
      (∀ c, parse args = .ok c ↔ Means items c) ∧
      ∀ parts', Reorders parts parts' → parse parts'.flatten = parse args) ∧
    ∀ e, parse args = .error e ↔ ∃ parts items rest, Begins args parts items rest ∧ Misfit rest e :=
  ⟨exists_ok_iff, fun _ _ hsplits => ⟨fun _ => hsplits.parse_eq_ok, fun _ h => h.parse_eq hsplits⟩,
    fun _ => parse_eq_error_iff⟩

/-- Flags that come twice, and a value that looks like a flag. -/
def mixedParts : List (List String) :=
  [["--program", "--out"], ["-v"], ["--mode", "Legacy"], ["--program", "p.json"],
    ["--mode", "RUNTIME"]]

/-- What `mixedParts` spell. -/
def mixedItems : List Item :=
  [.value .program "--out", .switch .verbose, .value .mode "Legacy", .value .program "p.json",
    .value .mode "RUNTIME"]

/-- The parts spell the items one by one. -/
theorem mixedParts_spell : List.Forall₂ Spells mixedParts mixedItems := by
  have hprogram : ∀ text, Spells ["--program", text] (.value .program text) := fun text =>
    @Spells.value .program text nofun
  have hmode : ∀ text m, Mode.parse text = .ok m → Spells ["--mode", text] (.value .mode text) :=
    fun text m hm =>
    @Spells.value .mode text fun _ => ⟨m, Mode.parse_eq_ok.mp hm⟩
  exact .cons (hprogram _)
    (.cons (.switch (by decide)) (.cons (hmode _ .legacy rfl) (.cons (hprogram _)
    (.cons (hmode _ .runtime rfl) .nil))))

/-- The value `--out` is no flag here, the later program and mode win, and a swap changes nothing.
With an unknown mode behind, the error is about the mode, not about the flag after it. -/
theorem mixed_arguments :
    parse mixedParts.flatten =
      .ok ⟨some "p.json", none, none, none, some .runtime, false, false, false, true⟩ ∧
    parse ["-v", "--program", "--out", "--mode", "Legacy", "--program", "p.json", "--mode",
      "RUNTIME"] =
      parse mixedParts.flatten ∧
    parse (mixedParts.flatten ++ ["--mode", "fast", "--bogus"]) = .error (.unknownMode "fast") := by
  obtain ⟨-, hsplits, -⟩ := arguments_exact mixedParts.flatten
  obtain ⟨hparse, horder⟩ := hsplits mixedParts mixedItems ⟨rfl, mixedParts_spell⟩
  refine ⟨(hparse _).mpr ?_, ?_, ?_⟩
  · have hlast : lastText? .mode mixedItems = some "RUNTIME" := rfl
    have hmode : Mode.parse "RUNTIME" = .ok .runtime := rfl
    refine ⟨rfl, rfl, rfl, rfl, fun m => ?_, by decide, by decide, by decide, by decide⟩
    simp [hlast, ← Mode.parse_eq_ok, hmode]
  · exact horder _
      (.swap (@Spells.value .program "--out" nofun)
        (@Spells.switch "-v" .verbose (by decide)) nofun _)
  · have hfast : ∀ m : Mode, ¬ SameIgnoringCase "fast" m.name := fun m hm => by
      cases (Mode.parse_eq_ok.mpr hm).symm.trans (show Mode.parse "fast" = .error "fast" from rfl)
    exact ((arguments_exact _).2.2 _).mpr ⟨mixedParts, mixedItems, _, ⟨rfl, mixedParts_spell⟩,
      .mode hfast⟩

end CommandLine

end ShaderPack
