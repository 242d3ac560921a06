import ShaderPack.Assembly.Basic
import ShaderPack.Proofs.Tables

/-!
# What taking in a declaration can do

A declaration changes an assembly in at most three ways: `Assembly.enter` adds a module,
`Assembly.remember` keeps flattened code, `Assembly.issue` gives out a handle and adds an
instruction. `FragmentStep` and `ShaderModuleStep` list the ways in which a declaration is taken in,
with everything that is decided on the way (`addFragment_step`, `addShaderModule_step`). What is
noted is left open.

Most invariants need less. `Change` has the three shapes that all of these steps have: nothing, a
handle, or a module and a handle.
-/

namespace ShaderPack

/-- Module `m` is what a table and a container make of code under a kind and a name; `blobs` is the
store with that code. -/
structure Enters (t : ModuleTable) (c : Container) (kind : Kind) (name : String) (code : Bytes)
    (deps : List UInt32) (m : Module) (blobs : BlobStore) : Prop where
  id_eq : m.id = UInt32.ofNat t.count
  key_eq : m.key = (kind, name)
  nameId_eq : m.nameId = (c.strings.intern name).2
  deps_eq : m.deps = deps
  fresh : (kind, name) ∉ t.keys
  deps_lt : ∀ d ∈ deps, d < m.id
  added : c.blobs.add? code = some (blobs, m.blob)
  placed : blobs.offset? m.blob = some m.offset
  in_step : m.id = (c.dependencies.add m.blob m.deps).2

/-- An instruction takes flattened code from a source, and the store is what it is after that: from
the module in runtime mode, if there is one, and from a new blob otherwise. -/
inductive Setting.Issues (s : Setting) (c : Container) (code : Bytes) :
    (module? : Option UInt32) → CodeSource → BlobStore → Prop
  /-- The module is used as it is. -/
  | module {id : UInt32} (hmode : s.options.mode = .runtime) :
      Issues s c code (some id) (.module id) c.blobs
  /-- The code is stored. -/
  | blob {module? : Option UInt32} {id : UInt32} {blobs : BlobStore}
      (h : s.options.mode = .legacy ∨ module? = none)
      (hadded : c.blobs.add? code = some (blobs, id)) : Issues s c code module? (.blob id) blobs

namespace Assembly

/-- Add module `m`, whose code is in the store `blobs`. -/
def enter (a : Assembly) (m : Module) (blobs : BlobStore) : Assembly :=
  { a with
    table := ⟨a.table.modules.push m⟩
    container :=
      { a.container with
        blobs
        strings := (a.container.strings.intern m.name).1
        dependencies := (a.container.dependencies.add m.blob m.deps).1 } }

/-- Keep the flattened code of a fragment. -/
def remember (a : Assembly) (name : String) (code : Bytes) : Assembly :=
  { a with cache := a.cache.insert name code }

/-- Give a declaration the next handle, and add the instruction that creates it from `source`. -/
def issue (a : Assembly) (key : Kind × String) (source : CodeSource) (blobs : BlobStore) :
    Assembly :=
  { a with
    handles := ⟨a.handles.next + 1, a.handles.handles.insert key a.handles.next⟩
    container := { a.container with blobs }.push (.create a.handles.next source) }

variable {s : Setting} {a b : Assembly} {kind : Kind} {name : String} {code : Bytes}

/-! ### The three smaller steps -/

/-- A module is added exactly if it can be entered, and then it is entered. -/
theorem addModule_eq_ok {deps : List UInt32} {id : UInt32} :
    a.addModule kind name code deps = .ok (b, id) ↔
      ∃ m blobs, Enters a.table a.container kind name code deps m blobs ∧ b = a.enter m blobs ∧
        id = m.id := by
  unfold addModule
  constructor
  · intro h
    split at h
    · cases h
    · next blobs blob hadded =>
      split at h
      · cases h
      · next offset hplaced =>
        simp only at h
        split at h
        · cases h
        · next table id' hregister =>
          split at h
          · next hstep =>
            cases h
            obtain ⟨hfresh, hid, hdeps, rfl⟩ := ModuleTable.register_eq_ok.mp hregister
            refine ⟨⟨id, kind, name, _, blob, offset, deps⟩, blobs, ?_, rfl, rfl⟩
            exact ⟨hid, rfl, rfl, rfl, hfresh, hdeps, hadded, hplaced, hstep⟩
          · cases h
  · rintro ⟨m, blobs, hm, rfl, rfl⟩
    obtain ⟨hid, hkey, hname, rfl, hfresh, hdeps, hadded, hplaced, hstep⟩ := hm
    obtain ⟨rfl, rfl⟩ := Prod.mk.inj hkey
    have hregister :
        a.table.register m.kind m.name (a.container.strings.intern m.name).2 m.blob m.offset
        m.deps = .ok (⟨a.table.modules.push m⟩, m.id) :=
      ModuleTable.register_eq_ok.mpr ⟨hfresh, hid, hdeps, by rw [← hname]⟩
    simp only [hadded, hplaced, hregister]
    rw [if_pos hstep]
    rfl

/-- Code is stored under a handle exactly if it can be got ready, and then there is an instruction
that creates the shader. -/
theorem store_eq_ok {c c' : Container} {module? : Option UInt32} {handle : UInt32} :
    s.store c code module? handle = .ok c' ↔
      ∃ source blobs, s.Issues c code module? source blobs ∧
        c' = { c with blobs }.push (.create handle source) := by
  unfold Setting.store
  constructor
  · intro h
    split at h
    · next hmode =>
      cases h
      exact ⟨_, _, .module hmode, rfl⟩
    · next hother =>
      split at h
      · cases h
      · next blobs id hadded =>
        cases h
        refine ⟨_, _, .blob ?_ hadded, rfl⟩
        -- it is legacy mode or there is no module, else the first branch had been taken
        by_contra hboth
        rw [not_or, Option.eq_none_iff_forall_ne_some] at hboth
        cases hmode : s.options.mode with
        | legacy => exact hboth.1 hmode
        | runtime => exact hboth.2 fun id hid => hother id hmode hid
  · rintro ⟨source, blobs, hsource, rfl⟩
    cases hsource with
    | module hmode => rw [hmode]
    | blob h hadded =>
        rcases h with hmode | rfl
        · rw [hmode, hadded]
        · rw [hadded]
          cases s.options.mode <;> rfl

/-- Code that is not empty gets a handle and an instruction, once it has been checked. -/
theorem addShader_eq_ok {module? : Option UInt32} (hne : code ≠ []) :
    a.addShader s kind name code module? = .ok b ↔
      s.validate kind name code = .ok () ∧
        ∃ source blobs, s.Issues a.container code module? source blobs ∧
          b = a.issue (kind, name) source blobs := by
  have hempty : code.isEmpty = false := by simpa using hne
  unfold addShader
  cases s.validate kind name code with
  | error e => simp
  | ok u =>
      simp only [HandleTable.commit_eq, hempty, Bool.false_eq_true, if_false, true_and]
      constructor
      · intro h
        split at h
        · cases h
        · next hcommit =>
          split at hcommit
          · cases hcommit
          · next hstore =>
            obtain ⟨source, blobs, hsource, rfl⟩ := store_eq_ok.mp hstore
            cases hcommit
            cases h
            exact ⟨source, blobs, hsource, rfl⟩
        · next hcommit =>
          split at hcommit <;> cases hcommit
      · rintro ⟨source, blobs, hsource, rfl⟩
        rw [store_eq_ok.mpr ⟨source, blobs, hsource, rfl⟩]
        rfl

/-- Empty code gets nothing. -/
theorem addShader_nil {module? : Option UInt32} (h : a.addShader s kind name [] module? = .ok b) :
    b = a.note [.nothingStored kind name] := by
  unfold addShader at h
  split at h
  · cases h
  · simp only [HandleTable.commit_eq, List.isEmpty_nil, if_true, Except.ok.injEq] at h
    exact h.symm

/-- An attempt goes on exactly if it succeeds. -/
theorem attempt_bind_eq_ok {α β : Type} {x : Except AssemblyError α} {f : α → Except Failure β}
    {y : β} : (a.attempt x >>= f) = .ok y ↔ ∃ z, x = .ok z ∧ f z = .ok y := by
  cases x with
  | error e => simp [attempt, bind, Except.bind]
  | ok z => simp [attempt, bind, Except.bind]

theorem attempt_eq_ok {α : Type} {x : Except AssemblyError α} {y : α} :
    a.attempt x = .ok y ↔ x = .ok y := by
  cases x <;> simp [attempt]

/-- Flattened code has its own part at least. -/
theorem flatten_ne_nil (t : ModuleTable) (store : BlobStore) (deps : List UInt32) {own : Bytes}
    (h : own ≠ []) : t.flatten store deps own ≠ [] :=
  List.append_ne_nil_of_right_ne_nil _ h

/-! ### Declarations -/

/-- The ways in which a fragment is taken in. -/
inductive FragmentStep (s : Setting) (a : Assembly) (name : String) (d : Declaration) :
    Assembly → Prop
  /-- It has no code. -/
  | empty {own : Expansion} (hown : s.expand (Declaration.fragmentCode d) = .ok own)
      (hempty : own.text = []) (log : Array Event) : FragmentStep s a name d { a with log }
  /-- It becomes a module and gets a handle. -/
  | stored {own : Expansion} {m : Module} {blobs blobs' : BlobStore} {code : Bytes}
      {source : CodeSource}
      (hown : s.expand (Declaration.fragmentCode d) = .ok own) (hne : own.text ≠ [])
      (hm : Enters a.table a.container .fragment name own.text
        (a.table.importIds (Declaration.imports d)) m blobs)
      (hcode : code = (a.enter m blobs).table.flatten blobs m.deps own.text)
      (hvalid : s.validate .fragment name code = .ok ())
      (hsource : s.Issues (a.enter m blobs).container code (some m.id) source blobs')
      (log : Array Event) :
      FragmentStep s a name d
        { ((a.enter m blobs).remember name code).issue (.fragment, name) source blobs' with log }

/-- If a fragment is taken in, then in one of the two ways. -/
theorem addFragment_step {d : Declaration} (h : a.addFragment s name d = .ok b) :
    FragmentStep s a name d b := by
  unfold addFragment at h
  obtain ⟨own, hown, h⟩ := attempt_bind_eq_ok.mp h
  by_cases hempty : own.text = []
  · simp only [hempty, List.isEmpty_nil, if_true] at h
    cases h
    exact .empty hown hempty _
  · have hisEmpty : own.text.isEmpty = false := by simpa using hempty
    simp only [hisEmpty, Bool.false_eq_true, if_false] at h
    obtain ⟨⟨a', id⟩, hadd, h⟩ := attempt_bind_eq_ok.mp h
    obtain ⟨m, blobs, hm, rfl, rfl⟩ := addModule_eq_ok.mp hadd
    have h' := attempt_eq_ok.mp h
    rw [addShader_eq_ok (flatten_ne_nil _ _ _ hempty)] at h'
    obtain ⟨hvalid, source, blobs', hsource, rfl⟩ := h'
    refine .stored (a := a) hown hempty hm ?_ hvalid hsource _
    rw [hm.deps_eq]
    rfl

/-- The ways in which a shader module is taken in. -/
inductive ShaderModuleStep (s : Setting) (a : Assembly) (name : String) (d : Declaration) :
    Assembly → Prop
  /-- It does not say what its code is. -/
  | missing (h : Declaration.codeProperty? d = none) (log : Array Event) :
      ShaderModuleStep s a name d { a with log }
  /-- It uses a fragment without code. -/
  | dangling {p : Property} {target : String} (hp : Declaration.codeProperty? d = some p)
      (href : p.reference? = some target) (h : (a.cache.find? target).getD [] = [])
      (log : Array Event) : ShaderModuleStep s a name d { a with log }
  /-- It has no code. -/
  | empty {p : Property} {own : Expansion} (hp : Declaration.codeProperty? d = some p)
      (href : p.reference? = none) (hown : s.expand (p.text?.getD "") = .ok own)
      (hempty : own.text = []) (log : Array Event) : ShaderModuleStep s a name d { a with log }
  /-- It uses a fragment, and gets a handle. -/
  | reference {p : Property} {target : String} {code : Bytes} {source : CodeSource}
      {blobs : BlobStore}
      (hp : Declaration.codeProperty? d = some p) (href : p.reference? = some target)
      (hcode : a.cache.find? target = some code) (hne : code ≠ [])
      (hvalid : s.validate .shaderModule name code = .ok ())
      (hsource : s.Issues a.container code (a.table.fragmentId? target) source blobs)
      (log : Array Event) :
      ShaderModuleStep s a name d { a.issue (.shaderModule, name) source blobs with log }
  /-- It has code of its own, and gets a handle. -/
  | legacy {p : Property} {own : Expansion} {code : Bytes} {source : CodeSource} {blobs : BlobStore}
      (hmode : s.options.mode = .legacy) (hp : Declaration.codeProperty? d = some p)
      (href : p.reference? = none) (hown : s.expand (p.text?.getD "") = .ok own)
      (hne : own.text ≠ [])
      (hcode : code = a.table.flatten a.container.blobs (a.table.importIds (Declaration.imports d))
        own.text)
      (hvalid : s.validate .shaderModule name code = .ok ())
      (hsource : s.Issues a.container code none source blobs) (log : Array Event) :
      ShaderModuleStep s a name d { a.issue (.shaderModule, name) source blobs with log }
  /-- It has code of its own, becomes a module and gets a handle. -/
  | runtime {p : Property} {own : Expansion} {m : Module} {blobs blobs' : BlobStore} {code : Bytes}
      {source : CodeSource} (hmode : s.options.mode = .runtime)
      (hp : Declaration.codeProperty? d = some p) (href : p.reference? = none)
      (hown : s.expand (p.text?.getD "") = .ok own) (hne : own.text ≠ [])
      (hcode : code = a.table.flatten a.container.blobs (a.table.importIds (Declaration.imports d))
        own.text)
      (hm : Enters a.table a.container .shaderModule name own.text
        (a.table.importIds (Declaration.imports d)) m blobs)
      (hvalid : s.validate .shaderModule name code = .ok ())
      (hsource : s.Issues (a.enter m blobs).container code (some m.id) source blobs')
      (log : Array Event) :
      ShaderModuleStep s a name d
        { (a.enter m blobs).issue (.shaderModule, name) source blobs' with log }

/-- If a shader module that uses a fragment is taken in, then in one of the ways there are for
it. -/
theorem addReference_step {d : Declaration} {p : Property} {target : String}
    (hp : Declaration.codeProperty? d = some p) (href : p.reference? = some target)
    (h : a.addReference s name target = .ok b) : ShaderModuleStep s a name d b := by
  unfold addReference at h
  split at h
  · next hnone =>
    cases h
    exact .dangling hp href (by rw [hnone]; rfl) _
  · next code hcode =>
    have h' := attempt_eq_ok.mp h
    by_cases hne : code = []
    · subst hne
      rw [addShader_nil h']
      exact .dangling hp href (by rw [hcode]; rfl) _
    · obtain ⟨hvalid, source, blobs, hsource, rfl⟩ := (addShader_eq_ok hne).mp h'
      exact .reference (a := a) hp href hcode hne hvalid hsource _

/-- So it is with code of its own. -/
theorem addInline_step {d : Declaration} {p : Property} (hp : Declaration.codeProperty? d = some p)
    (href : p.reference? = none) (h : a.addInline s name (p.text?.getD "") d = .ok b) :
    ShaderModuleStep s a name d b := by
  unfold addInline at h
  obtain ⟨own, hown, h⟩ := attempt_bind_eq_ok.mp h
  by_cases hempty : own.text = []
  · simp only [hempty, List.isEmpty_nil, if_true] at h
    cases h
    exact .empty hp href hown hempty _
  · have hisEmpty : own.text.isEmpty = false := by simpa using hempty
    simp only [hisEmpty, Bool.false_eq_true, if_false] at h
    cases hmode : s.options.mode with
    | legacy =>
        simp only [hmode] at h
        have h' := attempt_eq_ok.mp h
        rw [addShader_eq_ok (flatten_ne_nil _ _ _ hempty)] at h'
        obtain ⟨hvalid, source, blobs, hsource, rfl⟩ := h'
        exact .legacy (a := a) hmode hp href hown hempty rfl hvalid hsource _
    | runtime =>
        simp only [hmode] at h
        obtain ⟨⟨a', id⟩, hadd, h⟩ := attempt_bind_eq_ok.mp h
        obtain ⟨m, blobs, hm, rfl, rfl⟩ := addModule_eq_ok.mp hadd
        have h' := attempt_eq_ok.mp h
        rw [addShader_eq_ok (flatten_ne_nil _ _ _ hempty)] at h'
        obtain ⟨hvalid, source, blobs', hsource, rfl⟩ := h'
        exact .runtime (a := a) hmode hp href hown hempty rfl hm hvalid hsource _

/-- So it is with any shader module. -/
theorem addShaderModule_step {d : Declaration} (h : a.addShaderModule s name d = .ok b) :
    ShaderModuleStep s a name d b := by
  unfold addShaderModule at h
  split at h
  · next hnone =>
    cases h
    exact .missing hnone _
  · next p hp =>
    split at h
    · next target href => exact addReference_step hp href h
    · next href => exact addInline_step hp href h

/-! ### Shader modules by what they declare -/

namespace ShaderModuleStep

variable {d : Declaration} {p : Property} (h : ShaderModuleStep s a name d b)
include h

/-- Without code nothing changes. -/
theorem of_missing (hp : Declaration.codeProperty? d = none) : ∃ log, b = { a with log } := by
  cases h with
  | missing _ log => exact ⟨log, rfl⟩
  | dangling hp' => simp [hp] at hp'
  | empty hp' => simp [hp] at hp'
  | reference hp' => simp [hp] at hp'
  | legacy _ hp' => simp [hp] at hp'
  | runtime _ hp' => simp [hp] at hp'

/-- A reference gives out a handle, if the fragment has code. -/
theorem of_reference {target : String} (hp : Declaration.codeProperty? d = some p)
    (href : p.reference? = some target) :
    ((a.cache.find? target).getD [] = [] ∧ ∃ log, b = { a with log }) ∨
      ∃ code source blobs log, a.cache.find? target = some code ∧ code ≠ [] ∧
        s.Issues a.container code (a.table.fragmentId? target) source blobs ∧
        b = { a.issue (.shaderModule, name) source blobs with log } := by
  cases h with
  | missing hp' => simp [hp] at hp'
  | @dangling p' target' hp' href' hnone log =>
      obtain rfl : p = p' := Option.some.inj (hp.symm.trans hp')
      obtain rfl : target = target' := Option.some.inj (href.symm.trans href')
      exact .inl ⟨hnone, log, rfl⟩
  | @reference p' target' code source blobs hp' href' hcode hne _ hsource log =>
      obtain rfl : p = p' := Option.some.inj (hp.symm.trans hp')
      obtain rfl : target = target' := Option.some.inj (href.symm.trans href')
      exact .inr ⟨code, source, blobs, log, hcode, hne, hsource, rfl⟩
  | empty hp' href' => simp_all
  | legacy _ hp' href' => simp_all
  | runtime _ hp' href' => simp_all

/-- Code of its own gets a handle in legacy mode, if there is any. -/
theorem of_inline_legacy (hmode : s.options.mode = .legacy)
    (hp : Declaration.codeProperty? d = some p) (href : p.reference? = none) :
    ∃ own, s.expand (p.text?.getD "") = .ok own ∧
      ((own.text = [] ∧ ∃ log, b = { a with log }) ∨
        (own.text ≠ [] ∧ ∃ source blobs log,
          s.Issues a.container (a.table.flatten a.container.blobs
            (a.table.importIds (Declaration.imports d)) own.text) none source blobs ∧
          b = { a.issue (.shaderModule, name) source blobs with log })) := by
  cases h with
  | missing hp' => simp [hp] at hp'
  | dangling hp' href' => simp_all
  | reference hp' href' => simp_all
  | runtime hmode' => simp [hmode] at hmode'
  | @empty p' own hp' _ hown hempty log =>
      obtain rfl : p = p' := Option.some.inj (hp.symm.trans hp')
      exact ⟨own, hown, .inl ⟨hempty, log, rfl⟩⟩
  | @legacy p' own code source blobs _ hp' _ hown hne hcode _ hsource log =>
      obtain rfl : p = p' := Option.some.inj (hp.symm.trans hp')
      exact ⟨own, hown, .inr ⟨hne, source, blobs, log, hcode ▸ hsource, rfl⟩⟩

/-- Code of its own becomes a module and gets a handle in runtime mode, if there is any. -/
theorem of_inline_runtime (hmode : s.options.mode = .runtime)
    (hp : Declaration.codeProperty? d = some p) (href : p.reference? = none) :
    ∃ own, s.expand (p.text?.getD "") = .ok own ∧
      ((own.text = [] ∧ ∃ log, b = { a with log }) ∨
        (own.text ≠ [] ∧ ∃ m code source blobs blobs' log,
          Enters a.table a.container .shaderModule name own.text
            (a.table.importIds (Declaration.imports d)) m blobs ∧
          s.Issues (a.enter m blobs).container code (some m.id) source blobs' ∧
          b = { (a.enter m blobs).issue (.shaderModule, name) source blobs' with log })) := by
  cases h with
  | missing hp' => simp [hp] at hp'
  | dangling hp' href' => simp_all
  | reference hp' href' => simp_all
  | legacy hmode' => simp [hmode] at hmode'
  | @empty p' own hp' _ hown hempty log =>
      obtain rfl : p = p' := Option.some.inj (hp.symm.trans hp')
      exact ⟨own, hown, .inl ⟨hempty, log, rfl⟩⟩
  | @runtime p' own m blobs blobs' code source _ hp' _ hown hne _ hm _ hsource log =>
      obtain rfl : p = p' := Option.some.inj (hp.symm.trans hp')
      exact ⟨own, hown, .inr ⟨hne, m, code, source, blobs, blobs', log, hm, hsource, rfl⟩⟩

end ShaderModuleStep

/-! ### The shapes of a step -/

/-- What a step does to the tables, the handles and the container: nothing, a handle, or a module
and a handle. -/
inductive Change (s : Setting) (a : Assembly) (key : Kind × String) : Assembly → Prop
  /-- Nothing changes. -/
  | skipped (log : Array Event) : Change s a key { a with log }
  /-- A handle is given out. -/
  | issued {code : Bytes} {module? : Option UInt32} {source : CodeSource} {blobs : BlobStore}
      (hsource : s.Issues a.container code module? source blobs) (log : Array Event) :
      Change s a key { a.issue key source blobs with log }
  /-- A module is added and a handle given out. -/
  | entered {own code : Bytes} {deps : List UInt32} {m : Module} {source : CodeSource}
      {blobs blobs' : BlobStore} (hne : own ≠ [])
      (hm : Enters a.table a.container key.1 key.2 own deps m blobs)
      (hsource : s.Issues (a.enter m blobs).container code (some m.id) source blobs')
      (cache : CodeCache) (log : Array Event) :
      Change s a key { (a.enter m blobs).issue key source blobs' with cache, log }

/-- A fragment changes the tables under its own key, whichever way it is taken in. -/
theorem FragmentStep.change {d : Declaration} (h : FragmentStep s a name d b) :
    Change s a (.fragment, name) b := by
  cases h with
  | empty _ _ log => exact .skipped log
  | stored _ hne hm _ _ hsource log => exact .entered hne hm hsource _ log

/-- So does a shader module. -/
theorem ShaderModuleStep.change {d : Declaration} (h : ShaderModuleStep s a name d b) :
    Change s a (.shaderModule, name) b := by
  cases h with
  | missing _ log => exact .skipped log
  | dangling _ _ _ log => exact .skipped log
  | empty _ _ _ _ log => exact .skipped log
  | reference _ _ _ _ _ hsource log => exact .issued hsource log
  | legacy _ _ _ _ _ _ _ hsource log => exact .issued hsource log
  | runtime _ _ _ _ hne _ hm _ hsource log => exact .entered hne hm hsource _ log

end Assembly

end ShaderPack
