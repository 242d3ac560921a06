import ShaderPack.Proofs.Runs

/-!
# Why a declaration is refused

A declaration can fail to be taken in for two reasons only: its verdict is negative, or there is no
room for more code. The verdict says what comes of reading the code and of checking it when it is
flattened. It does not depend on how code is stored, nor on what is noted.

* `exists_enters`: if there is room for its code, a new declaration can become a module; the tables
  never turn out not to fit together.
* `codeVerdict_ne_defect`, `shaderModuleVerdict_ne_defect`: a negative verdict never blames the
  tables.
* `addFragment_error`, `addShaderModule_error`: a failure is the verdict's or an overflow.
* `addFragment_verdict`, `addShaderModule_verdict`: what is taken in had a positive verdict.
-/

namespace ShaderPack

/-- Imports mean modules that are there already. -/
theorem ModuleTable.importIds_lt {t : ModuleTable} (ht : t.WellFormed) {names : List String}
    {id : UInt32} (h : id ∈ t.importIds names) : id.toNat < t.count := by
  unfold importIds at h
  obtain ⟨name, -, hname⟩ := List.mem_filterMap.mp (List.mem_eraseDups.mp h)
  obtain ⟨m, hm, -⟩ := (lookup_eq_some_iff ht).mp hname
  exact lt_count_of_get? hm

namespace Assembly

variable {s : Setting} {a b : Assembly} {done : List (Kind × String)} {kind : Kind} {name : String}
  {code own : Bytes} {deps : List UInt32} {d : Declaration} {e : AssemblyError} {f : Failure}

/-! ### The smaller steps -/

/-- Notes do not make the tables unsound. -/
theorem Sound.note (h : a.Sound done) (es : List Event) : (a.note es).Sound done :=
  ⟨h.table, h.stored, h.in_step, h.keys, h.blobs, h.handles⟩

/-- A new declaration can become a module, once its code is in the store. -/
theorem exists_enters (ha : a.Sound done) (hkey : (kind, name) ∉ done) (hlen : done.length < 2 ^ 31)
    (hdeps : ∀ d ∈ deps, d.toNat < a.table.count) {blobs : BlobStore} {blob : UInt32}
    (hadded : a.container.blobs.add? code = some (blobs, blob)) :
    ∃ m, Enters a.table a.container kind name code deps m blobs := by
  have hspan := BlobStore.span?_of_add? hadded (by have := ha.blobs; omega)
  have hid : (UInt32.ofNat a.table.count).toNat = a.table.count := by
    have := ha.count_le
    exact UInt32.toNat_ofNat_of_lt' (by rw [UInt32.size]; omega)
  refine ⟨⟨.ofNat a.table.count, kind, name, _, blob, .ofNat a.container.blobs.byteCount, deps⟩,
    rfl, rfl, rfl, rfl, ?_, ?_, hadded, ?_, ?_⟩
  · exact fun hmem => hkey (ha.keys hmem)
  · intro d hd
    rw [UInt32.lt_iff_toNat_lt, hid]
    exact hdeps d hd
  · unfold BlobStore.offset?
    rw [hspan]
    rfl
  · rw [DependencyTable.add, ha.in_step]

/-- For a new name and dependencies that are there, a module can fail to be added only because the
store is full. -/
theorem addModule_error (ha : a.Sound done) (hkey : (kind, name) ∉ done)
    (hlen : done.length < 2 ^ 31) (hdeps : ∀ d ∈ deps, d.toNat < a.table.count)
    (h : a.addModule kind name code deps = .error e) : e = .storeOverflow BlobStore.limit := by
  cases hadd : a.container.blobs.add? code with
  | none =>
      unfold addModule at h
      rw [hadd] at h
      cases h
      rfl
  | some added =>
      obtain ⟨m, hm⟩ := exists_enters ha hkey hlen hdeps hadd
      rw [addModule_eq_ok.mpr ⟨m, _, hm, rfl, rfl⟩] at h
      cases h

/-- Code can fail to be stored only because the store is full. -/
theorem store_error {c : Container} {module? : Option UInt32} {handle : UInt32}
    (h : s.store c code module? handle = .error e) : e = .storeOverflow BlobStore.limit := by
  unfold Setting.store at h
  split at h
  · cases h
  · split at h
    · cases h
      rfl
    · cases h

/-- A shader can fail only because the store is full or because its code is refused. -/
theorem addShader_error {module? : Option UInt32}
    (h : a.addShader s kind name code module? = .error e) :
    e = .storeOverflow BlobStore.limit ∨ s.validate kind name code = .error e := by
  unfold addShader at h
  split at h
  · next hinvalid =>
    cases h
    exact .inr hinvalid
  · rw [HandleTable.commit_eq] at h
    split at h
    · next hcommit =>
      cases h
      split at hcommit
      · cases hcommit
      · split at hcommit
        · next hstore =>
          cases hcommit
          exact .inl (store_error hstore)
        · cases hcommit
    · cases h
    · cases h

/-- A failed attempt has the error of what was attempted. -/
theorem attempt_eq_error {α : Type} {x : Except AssemblyError α} (h : a.attempt x = .error f) :
    x = .error f.error := by
  cases x with
  | error e =>
      cases h
      rfl
  | ok x => cases h

/-- If an attempt and what comes after it fail, then one of the two. -/
theorem attempt_bind_eq_error {α β : Type} {x : Except AssemblyError α} {g : α → Except Failure β}
    (h : (a.attempt x >>= g) = .error f) :
    x = .error f.error ∨ ∃ z, x = .ok z ∧ g z = .error f := by
  cases x with
  | error e =>
      cases h
      exact .inl rfl
  | ok z => exact .inr ⟨z, rfl, h⟩

/-- The flattened code of a new module is the same before and after the module is added. -/
theorem Sound.flatten_enter {m : Module} {blobs : BlobStore} (ha : a.Sound done)
    (hm : Enters a.table a.container kind name own deps m blobs)
    (hdeps : ∀ d ∈ deps, d.toNat < a.table.count) (code : Bytes) :
    (a.enter m blobs).table.flatten blobs deps code = a.table.flatten a.container.blobs deps code :=
  ModuleTable.flatten_of_extends ha.table ha.stored (ModuleTable.extends_push _ _)
    (BlobStore.keeps_of_add? hm.added) hdeps code

/-! ### Verdicts -/

/-- What comes of the code of a declaration: it is read, and if there is any it is checked with
everything it imports. -/
def codeVerdict (s : Setting) (a : Assembly) (kind : Kind) (name raw : String)
    (imports : List String) : Except AssemblyError Unit :=
  match s.expand raw with
  | .error e => .error e
  | .ok own =>
    if own.text.isEmpty then .ok ()
    else s.validate kind name
      (a.table.flatten a.container.blobs (a.table.importIds imports) own.text)

/-- The verdict on a fragment. -/
def fragmentVerdict (s : Setting) (a : Assembly) (name : String) (d : Declaration) :
    Except AssemblyError Unit :=
  a.codeVerdict s .fragment name (Declaration.fragmentCode d) (Declaration.imports d)

/-- The verdict on a shader module. One that uses a fragment has the fragment's code checked again,
under its own name. -/
def shaderModuleVerdict (s : Setting) (a : Assembly) (name : String) (d : Declaration) :
    Except AssemblyError Unit :=
  match Declaration.codeProperty? d with
  | none => .ok ()
  | some p =>
    match p.reference? with
    | some target => s.validate .shaderModule name ((a.cache.find? target).getD [])
    | none => a.codeVerdict s .shaderModule name (p.text?.getD "") (Declaration.imports d)

/-- A text that does not expand has that error. -/
theorem codeVerdict_error {raw : String} {imports : List String} (h : s.expand raw = .error e) :
    a.codeVerdict s kind name raw imports = .error e := by
  rw [codeVerdict, h]

/-- A text that expands to nothing has nothing wrong. -/
theorem codeVerdict_nil {raw : String} {imports : List String} {x : Expansion}
    (h : s.expand raw = .ok x) (hempty : x.text = []) :
    a.codeVerdict s kind name raw imports = .ok () := by
  simp [codeVerdict, h, hempty]

/-- Otherwise the verdict is that of the check about the flattened code. -/
theorem codeVerdict_eq {raw : String} {imports : List String} {x : Expansion}
    (h : s.expand raw = .ok x) (hne : x.text ≠ []) :
    a.codeVerdict s kind name raw imports = s.validate kind name
      (a.table.flatten a.container.blobs (a.table.importIds imports) x.text) := by
  simp [codeVerdict, h, hne]

/-- A shader module that uses a fragment is judged by the code that is kept for it. -/
theorem shaderModuleVerdict_reference {p : Property} {target : String}
    (hp : Declaration.codeProperty? d = some p) (href : p.reference? = some target) :
    a.shaderModuleVerdict s name d =
      s.validate .shaderModule name ((a.cache.find? target).getD []) := by
  simp [shaderModuleVerdict, hp, href]

/-- A shader module with code of its own is judged by that code. -/
theorem shaderModuleVerdict_inline {p : Property} (hp : Declaration.codeProperty? d = some p)
    (href : p.reference? = none) : a.shaderModuleVerdict s name d =
      a.codeVerdict s .shaderModule name (p.text?.getD "") (Declaration.imports d) := by
  simp [shaderModuleVerdict, hp, href]

/-- Empty code is never checked. -/
theorem validate_nil (s : Setting) (kind : Kind) (name : String) :
    s.validate kind name [] = .ok () := by
  simp [Setting.validate]

/-! ### A negative verdict is about the program -/

/-- Reading a file does not run into a defect. -/
theorem load_ne_defect {files : Files} {base raw : String}
    (h : Source.load files base raw = .error e) (x : Defect) : e ≠ .defect x := by
  unfold Source.load Source.ofFile at h
  rintro rfl
  repeat' split at h
  all_goals cases h

/-- Nor does expanding a text. -/
theorem expand_ne_defect {raw : String} (h : s.expand raw = .error e) (x : Defect) :
    e ≠ .defect x := by
  unfold Setting.expand at h
  split at h
  · next hload =>
    cases h
    exact load_ne_defect hload x
  · split at h
    · cases h
      exact fun h => by cases h
    · cases h

/-- Nor does checking code. -/
theorem validate_ne_defect (h : s.validate kind name code = .error e) (x : Defect) :
    e ≠ .defect x := by
  unfold Setting.validate at h
  rintro rfl
  split at h
  · simp only at h
    split at h
    · cases h
    · cases h
  · cases h

/-- So no verdict about code is a defect. -/
theorem codeVerdict_ne_defect {raw : String} {imports : List String}
    (h : a.codeVerdict s kind name raw imports = .error e) (x : Defect) : e ≠ .defect x := by
  unfold codeVerdict at h
  split at h
  · next hexpand =>
    cases h
    exact expand_ne_defect hexpand x
  · split at h
    · cases h
    · exact validate_ne_defect h x

/-- Nor is one about a shader module. -/
theorem shaderModuleVerdict_ne_defect (h : a.shaderModuleVerdict s name d = .error e) (x : Defect) :
    e ≠ .defect x := by
  unfold shaderModuleVerdict at h
  split at h
  · cases h
  · split at h
    · exact validate_ne_defect h x
    · exact codeVerdict_ne_defect h x

/-! ### Fragments -/

/-- If a fragment fails, then because the store is full or as its verdict says. -/
theorem addFragment_error (ha : a.Sound done) (hkey : (Kind.fragment, name) ∉ done)
    (hlen : done.length < 2 ^ 31) (h : a.addFragment s name d = .error f) :
    f.error = .storeOverflow BlobStore.limit ∨ a.fragmentVerdict s name d = .error f.error := by
  unfold addFragment at h
  rcases attempt_bind_eq_error h with hown | ⟨own, hown, h⟩
  · exact .inr (codeVerdict_error hown)
  by_cases hempty : own.text = []
  · simp only [hempty, List.isEmpty_nil, if_true] at h
    cases h
  have hisEmpty : own.text.isEmpty = false := by simpa using hempty
  simp only [hisEmpty, Bool.false_eq_true, if_false] at h
  have hdeps : ∀ i ∈ a.table.importIds (Declaration.imports d), i.toNat < a.table.count :=
    fun i hi => ModuleTable.importIds_lt ha.table hi
  rcases attempt_bind_eq_error h with hadd | ⟨⟨a', id⟩, hadd, h⟩
  · exact .inl (addModule_error ((ha.note _).note _) hkey hlen hdeps hadd)
  obtain ⟨m, blobs, hm, rfl, rfl⟩ := addModule_eq_ok.mp hadd
  rcases addShader_error (attempt_eq_error h) with hfull | hinvalid
  · exact .inl hfull
  · have hflat := ha.flatten_enter hm hdeps own.text
    refine .inr ((codeVerdict_eq hown hempty).trans ?_)
    exact (congrArg (s.validate .fragment name) hflat).symm.trans hinvalid

/-- If a fragment is taken in, its verdict was that nothing is wrong. -/
theorem addFragment_verdict (ha : a.Sound done) (h : FragmentStep s a name d b) :
    a.fragmentVerdict s name d = .ok () := by
  cases h with
  | empty hown hempty log => exact codeVerdict_nil hown hempty
  | @stored own m blobs blobs' code source hown hne hm hcode hvalid hsource log =>
      have hflat := ha.flatten_enter hm (fun i hi => ModuleTable.importIds_lt ha.table hi) own.text
      rw [hcode, hm.deps_eq, hflat] at hvalid
      exact (codeVerdict_eq hown hne).trans hvalid

/-! ### Shader modules -/

/-- If a shader module with code of its own fails, then because the store is full or as the verdict
about its code says. -/
theorem addInline_error {raw : String} (ha : a.Sound done) (hkey : (Kind.shaderModule, name) ∉ done)
    (hlen : done.length < 2 ^ 31) (h : a.addInline s name raw d = .error f) :
    f.error = .storeOverflow BlobStore.limit ∨
      a.codeVerdict s .shaderModule name raw (Declaration.imports d) = .error f.error := by
  unfold addInline at h
  rcases attempt_bind_eq_error h with hown | ⟨own, hown, h⟩
  · exact .inr (codeVerdict_error hown)
  by_cases hempty : own.text = []
  · simp only [hempty, List.isEmpty_nil, if_true] at h
    cases h
  have hisEmpty : own.text.isEmpty = false := by simpa using hempty
  simp only [hisEmpty, Bool.false_eq_true, if_false] at h
  rw [codeVerdict_eq hown hempty]
  cases hmode : s.options.mode with
  | legacy =>
      simp only [hmode] at h
      exact addShader_error (attempt_eq_error h)
  | runtime =>
      simp only [hmode] at h
      rcases attempt_bind_eq_error h with hadd | ⟨⟨a', id⟩, hadd, h⟩
      · have hdeps : ∀ i ∈ a.table.importIds (Declaration.imports d), i.toNat < a.table.count :=
          fun i hi => ModuleTable.importIds_lt ha.table hi
        exact .inl (addModule_error (((ha.note _).note _).note _) hkey hlen hdeps hadd)
      · exact addShader_error (attempt_eq_error h)

/-- If a shader module fails, then because the store is full or as its verdict says. -/
theorem addShaderModule_error (ha : a.Sound done) (hkey : (Kind.shaderModule, name) ∉ done)
    (hlen : done.length < 2 ^ 31) (h : a.addShaderModule s name d = .error f) :
    f.error = .storeOverflow BlobStore.limit ∨ a.shaderModuleVerdict s name d = .error f.error := by
  unfold addShaderModule at h
  split at h
  · cases h
  · next p hp =>
    split at h
    · next target href =>
      unfold addReference at h
      split at h
      · cases h
      -- the code that is kept for the fragment is stored, so it alone can be refused
      · next code hcode =>
        rw [shaderModuleVerdict_reference hp href, hcode, Option.getD_some]
        exact addShader_error (attempt_eq_error h)
    · next href =>
      rw [shaderModuleVerdict_inline hp href]
      exact addInline_error ha hkey hlen h

/-- If a shader module is taken in, its verdict was that nothing is wrong. -/
theorem addShaderModule_verdict (h : ShaderModuleStep s a name d b) :
    a.shaderModuleVerdict s name d = .ok () := by
  cases h with
  | missing hp log => rw [shaderModuleVerdict, hp]
  | dangling hp href hnone log =>
      rw [shaderModuleVerdict_reference hp href, hnone]
      exact validate_nil s _ _
  | empty hp href hown hempty log =>
      rw [shaderModuleVerdict_inline hp href]
      exact codeVerdict_nil hown hempty
  | reference hp href hcode hne hvalid hsource log =>
      rw [shaderModuleVerdict_reference hp href, hcode, Option.getD_some]
      exact hvalid
  | legacy hmode hp href hown hne hcode hvalid hsource log =>
      rw [shaderModuleVerdict_inline hp href]
      exact (codeVerdict_eq hown hne).trans (hcode ▸ hvalid)
  | runtime hmode hp href hown hne hcode hm hvalid hsource log =>
      rw [shaderModuleVerdict_inline hp href]
      exact (codeVerdict_eq hown hne).trans (hcode ▸ hvalid)

end Assembly

end ShaderPack
