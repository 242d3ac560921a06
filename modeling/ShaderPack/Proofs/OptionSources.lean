import ShaderPack.CommandLine.Run
import ShaderPack.Proofs.ArgumentGrammar
import ShaderPack.Proofs.ContainerReader
import ShaderPack.Proofs.JsonValues

/-!
# Where options come from

An option can be given on the command line, in a file of options, or not at all. What a file gives
is said of its JSON tree (`Settings.GivenBy`): a field is a member of an object or a place in an
array (`Json.Gives`), and may be left out.

* `Path.IsDirectoryOf`: the directory of a path, and `parent?` finds it.
* `Options.parse?_eq_some`: reading a file gives the settings in it, and defaults for the others.
* `CommandLine.options_precedence`: which options are used. The command line comes first, then the
  file, then defaults.
* `CommandLine.program_directory_unused`: the directory of the program is the default only where
  there is no file of options. A file that has other settings takes it away.
-/

namespace ShaderPack

/-! ### Directories -/

namespace Path

/-- The text can be a name in a path: it has no slash, and is not empty or a single dot. -/
def IsName (name : String) : Prop := '/' ∉ name.toList ∧ isBlankPart name.toList = false

/-- What stands behind the last slash of the path, or the whole path, is a name. -/
def EndsInName (path : String) : Prop :=
  ∃ name, IsName name ∧ (path = name ∨ ∃ above, path = above ++ "/" ++ name)

/-- Cutting at slashes, told by the cutting of lists: what is at hand goes in front of the first
part. -/
theorem partsFrom_eq (name : List Char) (found : List (List Char)) (path : List Char) :
    partsFrom name found path =
      found.reverse ++ (path.splitOn '/').modifyHead (name.reverse ++ ·) := by
  induction path generalizing name found with
  | nil => simp [partsFrom]
  | cons c rest ih =>
      rw [partsFrom, List.splitOn_cons_eq_if_modifyHead]
      split
      · next hc =>
        rw [ih, hc]
        cases rest.splitOn '/' <;> simp
      · next hc =>
        rw [ih]
        cases rest.splitOn '/' <;> simp [hc]

/-- The parts of a path are what stands between its slashes. -/
theorem parts_eq (path : List Char) : parts path = path.splitOn '/' := by
  rw [parts, partsFrom_eq]
  cases path.splitOn '/' <;> rfl

/-- Parts put together again make the path. -/
theorem joinParts_parts (path : List Char) : joinParts (parts path) = path := by
  rw [parts_eq]
  exact List.intercalate_splitOn '/'

/-- A name behind a slash is one part more. -/
theorem parts_append (path : List Char) {name : List Char} (hname : '/' ∉ name) :
    parts (path ++ '/' :: name) = parts path ++ [name] := by
  rw [parts_eq, parts_eq, List.splitOn_append_cons_self, List.splitOn_eq_singleton hname]

/-- A name without a slash is its only part. -/
theorem parts_of_not_mem {name : List Char} (hname : '/' ∉ name) : parts name = [name] := by
  rw [parts_eq, List.splitOn_eq_singleton hname]

/-- The start and the parts of a path are all there is of it. -/
theorem splitStart_join (path : List Char) :
    (splitStart path).1 ++ joinParts (splitStart path).2 = path := by
  fun_cases splitStart path <;> simp [joinParts_parts]
  rfl

/-- A name behind a directory is one part more. -/
theorem splitStart_append {dir name : List Char} (hdir : dir ≠ []) (hdot : dir ≠ ['.'])
    (hname : '/' ∉ name) :
    splitStart (dir ++ '/' :: name) = ((splitStart dir).1, (splitStart dir).2 ++ [name]) := by
  fun_cases splitStart dir with
  | case1 rest => simp [splitStart, parts_append _ hname]
  | case2 => exact absurd rfl hdot
  | case3 rest =>
      have hparts := parts_append ('/' :: rest) hname
      simpa [splitStart] using hparts
  | case4 _ hslash _ hcurrent =>
      -- the first two characters decide, and they are those of `dir`
      obtain ⟨c, rest, rfl⟩ := List.exists_cons_of_ne_nil hdir
      rw [splitStart]
      · rw [parts_append _ hname]
      · rintro _ ⟨⟩
        exact hslash rest rfl
      · simp
      · rintro _ heq
        obtain ⟨rfl, hrest⟩ := List.cons.inj heq
        cases rest with
        | nil => exact hdot rfl
        | cons d rest =>
            obtain ⟨rfl, -⟩ := List.cons.inj hrest
            exact hcurrent rest rfl

/-- A lone name starts with nothing else. -/
theorem splitStart_name {name : String} (h : IsName name) :
    splitStart name.toList = ([], [name.toList]) := by
  obtain ⟨hslash, hblank⟩ := h
  generalize name.toList = name at hslash hblank
  fun_cases splitStart name with
  | case1 rest => simp at hslash
  | case2 => simp [isBlankPart] at hblank
  | case3 rest => simp at hslash
  | case4 => rw [parts_of_not_mem hslash]

/-- Of a path that starts with a dot, the dot is apart from the names. -/
theorem splitStart_dot {name : List Char} (hname : '/' ∉ name) :
    splitStart ('.' :: '/' :: name) = (['.'], [[]] ++ [name]) :=
  congrArg (Prod.mk ['.']) (parts_append [] hname)

/-- The last part of a path that ends in a name is that name. -/
theorem exists_splitStart {above name : List Char} (hname : '/' ∉ name) :
    ∃ start front, splitStart (above ++ '/' :: name) = (start, front ++ [name]) := by
  by_cases hnil : above = []
  · exact ⟨['/'], [], by rw [hnil, List.nil_append, splitStart, parts_of_not_mem hname]; rfl⟩
  · by_cases hdot : above = ['.']
    · exact ⟨['.'], [[]], by rw [hdot]; exact splitStart_dot hname⟩
    · exact ⟨_, _, splitStart_append hnil hdot hname⟩

/-- If the last part is a name, nothing is left out at the end. -/
theorem trimEnd_concat (ps : List (List Char)) {name : List Char}
    (hname : isBlankPart name = false) :
    trimEnd (ps ++ [name]) = ps ++ [name] := by
  rw [trimEnd, List.reverse_concat, List.dropWhile_cons, hname]
  simp

/-- Nothing is trimmed off a path that ends in a name. -/
theorem EndsInName.trimEnd_eq {path : String} (h : EndsInName path) :
    trimEnd (splitStart path.toList).2 = (splitStart path.toList).2 := by
  obtain ⟨name, hname, rfl | ⟨above, rfl⟩⟩ := h
  · rw [splitStart_name hname]
    exact trimEnd_concat [] hname.2
  · obtain ⟨start, front, hsplit⟩ := @exists_splitStart above.toList name.toList hname.1
    have hlist : (above ++ "/" ++ name).toList = above.toList ++ '/' :: name.toList := by simp
    rw [hlist, hsplit]
    exact trimEnd_concat front hname.2

/-- A path that ends in a name is not empty, and not a single dot. -/
theorem EndsInName.ne {path : String} (h : EndsInName path) :
    path.toList ≠ [] ∧ path.toList ≠ ['.'] := by
  obtain ⟨name, ⟨-, hblank⟩, rfl | ⟨above, rfl⟩⟩ := h
  · constructor <;> intro heq <;> simp [heq, isBlankPart] at hblank
  · constructor <;> intro heq <;> simp [List.append_eq_cons_iff] at heq

/-- The directory of a path whose last part is a name: all before it, without parts at the end that
change nothing. -/
theorem parent?_of_splitStart {path : String} {start : List Char} {front : List (List Char)}
    {name : List Char} (hsplit : splitStart path.toList = (start, front ++ [name]))
    (hname : isBlankPart name = false) :
    parent? path = some (String.ofList (start ++ joinParts (trimEnd front))) := by
  rw [parent?, hsplit]
  simp [trimEnd_concat front hname]

/-- The path is that of a name in this directory. -/
inductive IsDirectoryOf : String → String → Prop
  | bare {name : String} (hname : IsName name) : IsDirectoryOf "" name
  | root {name : String} (hname : IsName name) : IsDirectoryOf "/" ("/" ++ name)
  | current {name : String} (hname : IsName name) : IsDirectoryOf "." ("./" ++ name)
  | below {dir name : String} (hdir : EndsInName dir) (hname : IsName name) :
      IsDirectoryOf dir (dir ++ "/" ++ name)

/-- What is said of directories is what is computed for paths. -/
theorem IsDirectoryOf.parent?_eq {dir path : String} (h : IsDirectoryOf dir path) :
    parent? path = some dir := by
  cases h with
  | bare hname =>
      have hsplit : splitStart path.toList = ([], [] ++ [path.toList]) := splitStart_name hname
      rw [parent?_of_splitStart hsplit hname.2]
      rfl
  | @root name hname =>
      have hlist : ("/" ++ name).toList = '/' :: name.toList := by simp
      have hsplit : splitStart ("/" ++ name).toList = (['/'], [] ++ [name.toList]) := by
        rw [hlist, splitStart, parts_of_not_mem hname.1]
        rfl
      rw [parent?_of_splitStart hsplit hname.2]
      rfl
  | @current name hname =>
      have hlist : ("./" ++ name).toList = '.' :: '/' :: name.toList := by simp
      rw [parent?_of_splitStart (hlist ▸ splitStart_dot hname.1) hname.2]
      rfl
  | @below dir name hdir hname =>
      have hlist : (dir ++ "/" ++ name).toList = dir.toList ++ '/' :: name.toList := by simp
      have hsplit := splitStart_append hdir.ne.1 hdir.ne.2 hname.1
      rw [parent?_of_splitStart (hlist ▸ hsplit) hname.2, hdir.trimEnd_eq, splitStart_join,
        String.ofList_toList]

end Path

/-! ### Fields -/

namespace Json

/-- A record gives this value for its field number `i`: as a member with the field's name, or by its
place. -/
inductive Gives (i : Nat) (name : String) : Tree → Tree → Prop
  | member {members : Tree.Members} {v : Tree} (h : (some name, v) ∈ members) :
      Gives i name (.obj members) v
  | item {items : List Tree} {v : Tree} (h : items[i]? = some v) : Gives i name (.arr items) v

/-- What a record gives for its field number `i`, read by `R`: nothing, if the record leaves the
field out. -/
inductive Field {α : Type} (i : Nat) (name : String) (R : Tree → α → Prop) (t : Tree) :
    Option α → Prop
  | absent (h : ∀ v, ¬ Gives i name t v) : Field i name R t none
  | present {v : Tree} {x : α} (hv : Gives i name t v) (hx : R v x) : Field i name R t (some x)

/-- What is found for a key that comes at most once is its value. -/
theorem memberOnce?_eq_some {members : Tree.Members} {key : String} {found : Option Tree}
    (h : memberOnce? members key = some found) (v : Tree) :
    found = some v ↔ (some key, v) ∈ members := by
  have hmem : (some key, v) ∈ members ↔
      (some key, v) ∈ members.filter fun m => m.1 = some key := by simp
  rw [hmem]
  unfold memberOnce? at h
  split at h
  · next hnil =>
    cases h
    simp [hnil]
  · next m hone =>
    cases h
    have hkey : m.1 = some key := by
      have := List.mem_filter.mp (hone ▸ List.mem_singleton_self m)
      simpa using this.2
    rw [hone, List.mem_singleton, Prod.ext_iff, hkey]
    simp [eq_comm]
  · cases h

/-- Results of a computation over a list stand at the places of what they come from. -/
theorem getElem?_mapM {α β : Type} {f : α → Option β} {xs : List α} {ys : List β}
    (h : xs.mapM f = some ys) {i : Nat} {x : α} {y : β} (hx : xs[i]? = some x)
    (hy : ys[i]? = some y) : f x = some y := by
  induction xs generalizing ys i with
  | nil => cases hx
  | cons x' xs ih =>
      simp only [List.mapM_cons, Option.bind_eq_bind, Option.bind_eq_some_iff, Option.pure_def,
        Option.some.injEq] at h
      obtain ⟨y', hy', ys, hys, rfl⟩ := h
      cases i with
      | zero =>
          cases hx
          cases hy
          exact hy'
      | succ i => exact ih hys hx hy

/-- In a list that is filled up with nothing, what is there is what was there before. -/
theorem getElem?_padded {items : List Tree} {n i : Nat} {found : Option Tree}
    (h : (items.map some ++ List.replicate n none)[i]? = some found) : found = items[i]? := by
  rw [List.getElem?_append, List.length_map] at h
  split at h
  · next hi =>
    rw [List.getElem?_map, List.getElem?_eq_getElem hi] at h
    rw [List.getElem?_eq_getElem hi]
    exact (Option.some.inj h).symm
  · next hi =>
    rw [List.getElem?_eq_none (Nat.le_of_not_lt hi)]
    exact (List.eq_of_mem_replicate (List.mem_of_getElem? h))

/-- A field is what the record gives for it. -/
theorem recordFields?_eq_some {names : List String} {t : Tree} {fields : List (Option Tree)}
    (h : recordFields? names t = some fields) {i : Nat} {name : String} {found : Option Tree}
    (hname : names[i]? = some name) (hfound : fields[i]? = some found) (v : Tree) :
    found = some v ↔ Gives i name t v := by
  cases t with
  | obj members =>
      rw [recordFields?] at h
      split at h
      · have hmember := memberOnce?_eq_some (getElem?_mapM h hname hfound) v
        rw [hmember]
        exact ⟨.member, fun h => by cases h; assumption⟩
      · cases h
  | arr items =>
      rw [recordFields?] at h
      split at h
      · cases h
        rw [getElem?_padded hfound]
        exact ⟨.item, fun h => by cases h; assumption⟩
      · cases h
  | _ => cases h

/-- Reading a field gives what the record gives for it, and else the default. -/
theorem field?_eq_some {α : Type} {default x : α} {read : Tree → Option α} {R : Tree → α → Prop}
    (hread : ∀ v x, read v = some x → R v x) {i : Nat} {name : String} {t : Tree}
    {found : Option Tree} (hfound : ∀ v, found = some v ↔ Gives i name t v)
    (h : field? default read found = some x) :
    ∃ given, Field i name R t given ∧ x = given.getD default := by
  cases found with
  | none =>
      cases h
      refine ⟨none, .absent fun v hv => ?_, rfl⟩
      cases (hfound v).mpr hv
  | some v => exact ⟨some x, .present ((hfound v).mp rfl) (hread v x h), rfl⟩

theorem string?_eq_some {v : Tree} {s : String} (h : string? v = some s) : v = .str (some s) := by
  cases v <;> cases h
  rfl

theorem bool?_eq_some {v : Tree} {b : Bool} (h : bool? v = some b) : v = .bool b := by
  cases v <;> cases h
  rfl

end Json

/-- The tree stands for a mode: its name, or an object with the name as only key. -/
def Mode.IsTree (v : Json.Tree) (m : Mode) : Prop :=
  v = .str (some m.name) ∨ v = .obj [(some m.name, .null)]

/-- A mode is read from one of its two spellings only. -/
theorem Mode.isTree_of_ofTree? {depth : Nat} {v : Json.Tree} {m : Mode}
    (h : ofTree? depth v = some m) : IsTree v m := by
  unfold ofTree? at h
  split at h
  · exact .inl (by rw [ofName?_eq_some.mp h])
  · split at h
    · cases h
    · exact .inr (by rw [ofName?_eq_some.mp h])
  · cases h

/-- Options of which each may be left out. -/
structure Settings where
  /-- The directory that the paths of source files start from. -/
  baseDir : Option String
  /-- What instructions point at. -/
  mode : Option Mode
  /-- Whether the code of every shader is checked. -/
  validate : Option Bool

/-- The text of a file of options gives these settings and leaves out the others. -/
def Settings.GivenBy (text : String) (s : Settings) : Prop :=
  ∃ t, Json.Tree.parse? text = some t ∧
    Json.Field 0 "baseDir" (fun v dir => v = .str (some dir)) t s.baseDir ∧
    Json.Field 1 "mode" Mode.IsTree t s.mode ∧
    Json.Field 2 "validateWgsl" (fun v b => v = .bool b) t s.validate

/-- Options are read as the text gives them. Those that it leaves out have defaults. -/
theorem Options.parse?_eq_some {text : String} {o : Options} (h : parse? text = some o) :
    ∃ s : Settings, s.GivenBy text ∧
    o = ⟨s.baseDir.getD ".", s.mode.getD .legacy, s.validate.getD false⟩ := by
  obtain ⟨t, htree, ht⟩ := Option.bind_eq_some_iff.mp h
  unfold ofTree? at ht
  split at ht
  · cases ht
  · split at ht
    · next hfields =>
      simp only [Option.bind_eq_bind, Option.bind_eq_some_iff, Option.pure_def,
        Option.some.injEq] at ht
      obtain ⟨_, hdir, _, hmode, _, hvalidate, rfl⟩ := ht
      obtain ⟨dir, hdir', rfl⟩ := Json.field?_eq_some (fun _ _ => Json.string?_eq_some)
        (Json.recordFields?_eq_some (i := 0) hfields rfl rfl) hdir
      obtain ⟨mode, hmode', rfl⟩ := Json.field?_eq_some (fun _ _ => Mode.isTree_of_ofTree?)
        (Json.recordFields?_eq_some (i := 1) hfields rfl rfl) hmode
      obtain ⟨validate, hvalidate', rfl⟩ := Json.field?_eq_some (fun _ _ => Json.bool?_eq_some)
        (Json.recordFields?_eq_some (i := 2) hfields rfl rfl) hvalidate
      exact ⟨⟨dir, mode, validate⟩, ⟨t, htree, hdir', hmode', hvalidate'⟩, rfl⟩
    · cases ht

/-! ### Precedence -/

/-- The settings of the file of options at a path. Without a path there are none. -/
inductive Settings.FromFile (files : Files) : Option String → Settings → Prop
  | noFile : FromFile files none ⟨none, none, none⟩
  | file {path text : String} {s : Settings} (hread : files.readText path = .ok text)
      (hs : s.GivenBy text) : FromFile files (some path) s

/-- Options are loaded from a file that can be read and whose text is one of options. -/
theorem Options.load_eq_ok {files : Files} {path : String} {o : Options}
    (h : load files path = .ok o) :
    ∃ text, files.readText path = .ok text ∧ parse? text = some o := by
  unfold load at h
  split at h
  · cases h
  · next text hread =>
    split at h
    · cases h
    · next hparse =>
      cases h
      exact ⟨text, hread, hparse⟩

namespace CommandLine

/-- The directory that is used if none is given: that of the program if there is no file of options,
and else the current one. -/
def fallbackDir (options : Option String) (program : String) : String :=
  if options.isSome then "." else (Path.parent? program).getD "."

/-- The options to start with are those of the file, if there is one. What the file does not say is
the default, and for the directory the fallback. -/
theorem startOptions_eq_ok {files : Files} {c : CommandLine} {program : String} {o : Options}
    (h : c.startOptions files program = .ok o) :
    ∃ s : Settings, s.FromFile files c.options ∧
      o = ⟨s.baseDir.getD (fallbackDir c.options program), s.mode.getD .legacy,
        s.validate.getD false⟩ := by
  unfold startOptions at h
  split at h
  · next path hpath =>
    obtain ⟨text, hread, hparse⟩ := Options.load_eq_ok h
    obtain ⟨s, hs, rfl⟩ := Options.parse?_eq_some hparse
    rw [hpath]
    exact ⟨s, .file hread hs, rfl⟩
  · next hpath =>
    cases h
    rw [hpath]
    exact ⟨_, .noFile, rfl⟩

/-- The value of the mode is the name of one. -/
theorem Splits.exists_mode {args : List String} {parts : List (List String)} {items : List Item}
    {text : String} (h : Splits args parts items) (htext : lastText? .mode items = some text) :
    ∃ m : Mode, SameIgnoringCase text m.name := by
  have hspelled : ∀ x ∈ items, ∃ part, Spells part x := by
    obtain ⟨-, hparts⟩ := h
    clear htext
    induction hparts with
    | nil => exact List.forall_mem_nil _
    | cons hpart _ ih => exact List.forall_mem_cons.mpr ⟨⟨_, hpart⟩, ih⟩
  obtain ⟨x, hx, hmode⟩ := List.mem_filterMap.mp (List.mem_of_getLast? htext)
  obtain ⟨part, hpart⟩ := hspelled x hx
  cases hpart with
  | value h =>
      rw [Item.text?] at hmode
      split at hmode
      · next hflag =>
        cases hmode
        exact h hflag
      · cases hmode
  | switch _ => cases hmode

/-- There are options to start with, unless there is a file of options that cannot be loaded. -/
theorem exists_startOptions {files : Files} {c : CommandLine} (program : String)
    (hfile : ∀ path, c.options = some path → ∃ o, Options.load files path = .ok o) :
    ∃ o, c.startOptions files program = .ok o := by
  unfold startOptions
  split
  · next path hpath => exact hfile path hpath
  · exact ⟨_, rfl⟩

/-- **Which options are used.** The program is given, and if there is a file of options, it can be
read. The mode is the last one on the command line, else that of the file, else the default. The
code is checked if a switch or the file says so. The directory is the last one on the command line,
else that of the file. If neither has one, it is the directory of the program, but the current
directory if there is a file of options, whatever the file has in it. -/
theorem options_precedence (files : Files) {args : List String} {parts : List (List String)}
    {items : List Item} (hsplits : Splits args parts items) {program : String}
    (hprogram : lastText? .program items = some program)
    (hfile : ∀ path, lastText? .options items = some path → ∃ o, Options.load files path = .ok o) :
    ∃ c o s, parse args = .ok c ∧ c.program = some program ∧
    c.effectiveOptions files program = .ok o ∧
      Settings.FromFile files (lastText? .options items) s ∧
      (∀ text, lastText? .mode items = some text → SameIgnoringCase text o.mode.name) ∧
      (lastText? .mode items = none → o.mode = s.mode.getD .legacy) ∧
      (o.validate = true ↔ .switch .validate ∈ items ∨ s.validate = some true) ∧
      o.baseDir =
        ((lastText? .baseDir items).or s.baseDir).getD
          (fallbackDir (lastText? .options items) program) ∧
      ∀ dir, Path.IsDirectoryOf dir program → fallbackDir none program = dir := by
  obtain ⟨c, hmeans, hparse⟩ := hsplits.exists_means
  rw [← hmeans.options] at hfile ⊢
  obtain ⟨start, hstart⟩ := exists_startOptions program hfile
  have heffective : c.effectiveOptions files program = .ok (c.override start) := by
    rw [effectiveOptions, hstart]
    rfl
  obtain ⟨s, hs, rfl⟩ := startOptions_eq_ok hstart
  refine ⟨c, _, s, hparse, hmeans.program.trans hprogram, heffective, hs, ?_, ?_, ?_, ?_, ?_⟩
  · intro text htext
    obtain ⟨m, hm⟩ := hsplits.exists_mode htext
    rw [override, (hmeans.mode m).mpr ⟨text, htext, hm⟩]
    exact hm
  · intro htext
    have hnone : c.mode = none := Option.eq_none_iff_forall_ne_some.mpr fun m hm => by
      obtain ⟨text, hsome, -⟩ := (hmeans.mode m).mp hm
      cases htext.symm.trans hsome
    rw [override, hnone]
    rfl
  · rw [override, Bool.or_eq_true, hmeans.validate]
    cases s.validate <;> simp
  · rw [override, hmeans.baseDir]
    cases lastText? .baseDir items <;> rfl
  · intro dir hdir
    rw [fallbackDir, hdir.parent?_eq]
    rfl

/-- A file of options that says nothing about the directory. -/
def checkingText : String := "\x7b\"validateWgsl\":true\x7d"

/-- The text is read as the object that it was written for. -/
theorem parse?_checkingText :
    Json.Tree.parse? checkingText = some (.obj [(some "validateWgsl", .bool true)]) := by
  have htext : checkingText = Json.Value.compact (.obj [("validateWgsl", .bool true)]) := by
    decide +kernel
  rw [htext, Json.Tree.parse?_compact (.obj (List.forall_mem_singleton.mpr (.bool true)))]
  rfl

/-- The text gives one setting and leaves the others open. -/
theorem givenBy_checkingText {s : Settings} :
    s.GivenBy checkingText ↔ s = ⟨none, none, some true⟩ := by
  have hgives : ∀ i name v, Json.Gives i name (.obj [(some "validateWgsl", .bool true)]) v ↔
      name = "validateWgsl" ∧ v = .bool true := fun i name v => by
    constructor
    · rintro ⟨h⟩
      simpa using h
    · rintro ⟨rfl, rfl⟩
      exact .member (List.mem_singleton_self _)
  constructor
  · rintro ⟨t, ht, hdir, hmode, hvalidate⟩
    obtain rfl := Option.some.inj (parse?_checkingText.symm.trans ht)
    obtain ⟨dir, mode, validate⟩ := s
    cases hdir with
    | present hv => exact absurd ((hgives _ _ _).mp hv).1 (by decide)
    | absent =>
      cases hmode with
      | present hv => exact absurd ((hgives _ _ _).mp hv).1 (by decide)
      | absent =>
        cases hvalidate with
        | absent h => exact absurd ((hgives _ _ _).mpr ⟨rfl, rfl⟩) (h _)
        | present hv hx =>
            obtain ⟨-, rfl⟩ := (hgives _ _ _).mp hv
            cases hx
            rfl
  · rintro rfl
    refine ⟨_, parse?_checkingText, .absent fun v hv => ?_, .absent fun v hv => ?_,
      .present ((hgives _ _ _).mpr ⟨rfl, rfl⟩) rfl⟩
    · exact absurd ((hgives _ _ _).mp hv).1 (by decide)
    · exact absurd ((hgives _ _ _).mp hv).1 (by decide)

/-- The files of a disk that has only a file of options. -/
def checkingFiles : Files := fun path =>
  if path = "o.json" then .ok (Utf8.encode checkingText) else .error .notFound

/-- The file has the text. -/
theorem checkingFiles_readText : checkingFiles.readText "o.json" = .ok checkingText := by
  rw [Files.readText, checkingFiles, if_pos rfl]
  simp only [Utf8.decode?_encode]

/-- The options of the file have defaults for what it does not say. -/
theorem checkingFiles_load : Options.load checkingFiles "o.json" = .ok ⟨".", .legacy, true⟩ := by
  have hparse : Options.parse? checkingText = some ⟨".", .legacy, true⟩ := by
    rw [Options.parse?, parse?_checkingText]
    rfl
  rw [Options.load, checkingFiles_readText]
  simp only [hparse]

/-- Arguments with a program and a file of options. -/
def checkingParts : List (List String) :=
  [["--program", "demos/scene/program.json"], ["--options", "o.json"]]

/-- What `checkingParts` spell. -/
def checkingItems : List Item :=
  [.value .program "demos/scene/program.json", .value .options "o.json"]

/-- The arguments are a row of items. -/
theorem checkingParts_split : Splits checkingParts.flatten checkingParts checkingItems :=
  ⟨rfl, .cons (@Spells.value .program _ nofun) (.cons (@Spells.value .options _ nofun) .nil)⟩

/-- A file of options that says nothing of the directory moves the base from the directory of the
program to the current one. -/
theorem checking_options :
    ∃ c o, parse checkingParts.flatten = .ok c ∧
    c.effectiveOptions checkingFiles "demos/scene/program.json" = .ok o ∧ o.mode = .legacy ∧
    o.validate = true ∧
    o.baseDir = "." := by
  obtain ⟨c, o, s, hparse, -, heffective, hs, -, hmode, hvalidate, hdir, -⟩ :=
    options_precedence checkingFiles checkingParts_split rfl
      (by rintro path ⟨⟩; exact ⟨_, checkingFiles_load⟩)
  have hsettings : s = ⟨none, none, some true⟩ := by
    cases hs with
    | file hread' hs =>
        cases checkingFiles_readText.symm.trans hread'
        exact givenBy_checkingText.mp hs
  subst hsettings
  exact ⟨c, o, hparse, heffective, hmode rfl, hvalidate.mpr (.inr rfl), hdir⟩

/-- With a file of options that has no directory, it is not the program's directory that is used. -/
theorem program_directory_unused :
    ¬ ∀ (files : Files) (args : List String) (parts : List (List String))
    (items : List Item) (program : String) (c : CommandLine) (o : Options) (s : Settings),
    Splits args parts items →
      lastText? .program items = some program → parse args = .ok c →
      c.effectiveOptions files program = .ok o →
      s.FromFile files (lastText? .options items) →
      o.baseDir =
        ((lastText? .baseDir items).or s.baseDir).getD ((Path.parent? program).getD ".") := by
  intro h
  have hscene : Path.EndsInName "demos/scene" := ⟨"scene", ⟨by decide, rfl⟩, .inr ⟨"demos", rfl⟩⟩
  have hdirectory : Path.IsDirectoryOf "demos/scene" "demos/scene/program.json" :=
    @Path.IsDirectoryOf.below _ "program.json" hscene ⟨by decide, rfl⟩
  have hdir := h checkingFiles _ _ _ "demos/scene/program.json" _ _ _ checkingParts_split rfl rfl
    (congrArg (Except.map _) checkingFiles_load)
      (.file checkingFiles_readText (givenBy_checkingText.mpr rfl))
  rw [hdirectory.parent?_eq] at hdir
  exact absurd hdir (by decide)

end CommandLine

end ShaderPack
