import ShaderPack.Proofs.Handles
import ShaderPack.Proofs.ResolvedCode
import ShaderPack.Proofs.Verdicts

/-!
# How an assembly ends

Without a check of code and with room for all of it, only one thing can go wrong: a text that stands
for code cannot be read or expanded. Every fragment is read, whether anything uses it or not, and
every shader module with code of its own. The first text that fails decides the error.

If none fails, what is stored can be told from the declarations alone. `Program.outcome` says both.

* `Program.codeTexts`: the texts that are read, in their order.
* `Assembly.Follows`: an outcome is what a verdict on the texts says, unless the store overflowed.
* `Assembly.filter_run`: the keys that a run adds to a table are those of some of its declarations,
  in order.
* `Run.keys_eq`, `Run.handle_keys_eq`: which declarations have a module, and which shader modules a
  handle.
-/

namespace ShaderPack

namespace Setting

/-- Why the code that a text stands for cannot be had. -/
def failure? (s : Setting) (raw : String) : Option AssemblyError :=
  match s.expand raw with
  | .error e => some e
  | .ok _ => none

/-- Whether a text stands for code that is not empty. -/
def yieldsCode (s : Setting) (raw : String) : Bool :=
  match s.expand raw with
  | .error _ => false
  | .ok own => !own.text.isEmpty

variable {s : Setting} {raw : String} {e : AssemblyError} {own : Expansion}

@[simp] theorem failure?_eq_some_iff : s.failure? raw = some e ↔ s.expand raw = .error e := by
  unfold failure?
  split <;> simp_all

@[simp] theorem failure?_eq_none_iff : s.failure? raw = none ↔ ∃ own, s.expand raw = .ok own := by
  unfold failure?
  split <;> simp_all

/-- A text yields code exactly if it expands, and not to nothing. -/
theorem yieldsCode_iff :
    s.yieldsCode raw = true ↔ ∃ own, s.expand raw = .ok own ∧ own.text ≠ [] := by
  unfold yieldsCode
  split <;> simp_all

/-- A text that expands to nothing yields no code. -/
theorem yieldsCode_of_nil (h : s.expand raw = .ok own) (hempty : own.text = []) :
    s.yieldsCode raw = false := by
  simp [yieldsCode, h, hempty]

/-- A text that expands to something yields code. -/
theorem yieldsCode_of_ne (h : s.expand raw = .ok own) (hne : own.text ≠ []) :
    s.yieldsCode raw = true :=
  yieldsCode_iff.mpr ⟨own, h, hne⟩

/-- Without a check every code passes. -/
theorem validate_eq_ok (h : s.options.validate = false) (kind : Kind) (name : String)
    (code : Bytes) :
    s.validate kind name code = .ok () := by
  simp [validate, h]

end Setting

namespace Declaration

/-- The fragment whose code a shader module uses. -/
def target? (d : Declaration) : Option String := (codeProperty? d).bind Property.reference?

/-- The text of the code that a shader module has of its own. -/
def inlineCode? (d : Declaration) : Option String :=
  (codeProperty? d).bind fun code =>
    match code.reference? with
    | some _ => none
    | none => some (code.text?.getD "")

variable {d : Declaration} {code : Property} {target : String}

/-- A shader module that uses a fragment has a target and no code of its own. -/
theorem target?_of_reference (hp : codeProperty? d = some code)
    (href : code.reference? = some target) : target? d = some target ∧ inlineCode? d = none := by
  simp [target?, inlineCode?, hp, href]

/-- A shader module that uses no fragment has code of its own and no target. -/
theorem inlineCode?_of_inline (hp : codeProperty? d = some code) (href : code.reference? = none) :
    target? d = none ∧ inlineCode? d = some (code.text?.getD "") := by
  simp [target?, inlineCode?, hp, href]

/-- Which text a shader module has as code of its own. -/
theorem inlineCode?_eq_some_iff {raw : String} : inlineCode? d = some raw ↔
    ∃ code, codeProperty? d = some code ∧ code.reference? = none ∧ code.text?.getD "" = raw := by
  rw [inlineCode?, Option.bind_eq_some_iff]
  apply exists_congr
  intro code
  cases code.reference? <;> simp

/-- A shader module without code has neither a target nor a text. -/
theorem inlineCode?_of_missing (hp : codeProperty? d = none) :
    target? d = none ∧ inlineCode? d = none := by
  simp [target?, inlineCode?, hp]

end Declaration

namespace Assembly

variable {s : Setting} {a b c : Assembly} {done : List (Kind × String)} {name : String}
  {d : Declaration}

/-! ### Failures -/

/-- An outcome is what a verdict says: the error of the verdict, or a state with property `P` if
there is none. The store may overflow before the verdict is reached. -/
inductive Follows (verdict : Option AssemblyError) (P : Assembly → Prop) :
    Except Failure Assembly → Prop
  | overflowed (log : Array Event) :
      Follows verdict P (.error ⟨.storeOverflow BlobStore.limit, log⟩)
  | failed {e : AssemblyError} (h : verdict = some e) (log : Array Event) :
      Follows verdict P (.error ⟨e, log⟩)
  | passed {a : Assembly} (h : verdict = none) (ha : P a) : Follows verdict P (.ok a)

namespace Follows

variable {verdict verdict' : Option AssemblyError} {P Q : Assembly → Prop}
  {x : Except Failure Assembly}

/-- Two steps that follow their verdicts follow the first verdict that says something. -/
theorem bind {f : Assembly → Except Failure Assembly} (h : Follows verdict P x)
    (hf : ∀ a, P a → Follows verdict' Q (f a)) : Follows (verdict.or verdict') Q (x >>= f) := by
  cases h with
  | overflowed log => exact .overflowed log
  | failed h log => exact .failed (by rw [h, Option.some_or]) log
  | passed h ha =>
      rw [h, Option.none_or]
      exact hf _ ha

/-- If every step follows the verdict on its declaration, a run follows the first verdict that is an
error. -/
theorem run {α : Type} {f : Assembly → α → Except Failure Assembly} (keyOf : α → Kind × String)
    (verdictOf : α → Option AssemblyError) {P : List (Kind × String) → Assembly → Prop}
    {xs : List α}
    (hstep : ∀ done a x, keyOf x ∉ done → done.length < 2 ^ 31 → P done a →
      Follows (verdictOf x) (P (done ++ [keyOf x])) (f a x))
    (hnodup : (done ++ xs.map keyOf).Nodup) (hlen : (done ++ xs.map keyOf).length < 2 ^ 31)
    (ha : P done a) :
    Follows (xs.findSome? verdictOf) (P (done ++ xs.map keyOf)) (xs.foldlM f a) := by
  induction xs generalizing a done with
  | nil =>
      rw [List.map_nil, List.append_nil]
      exact .passed rfl ha
  | cons x xs ih =>
      obtain ⟨hfresh, hshort⟩ := fresh_of_nodup hnodup hlen
      rw [append_map_cons] at hnodup hlen ⊢
      -- the first error of a list is that of its head, or else that of the rest
      have hverdict : (x :: xs).findSome? verdictOf =
          (verdictOf x).or (xs.findSome? verdictOf) := by
        rw [List.findSome?_cons]
        cases verdictOf x <;> rfl
      rw [List.foldlM_cons, hverdict]
      apply (hstep done a x hfresh hshort ha).bind
      intro b hb
      exact ih hnodup hlen hb

/-- Where the store does not overflow, an outcome is a failure exactly if the verdict is an
error. -/
theorem error_iff (h : Follows verdict P x)
    (hroom : ∀ log, x ≠ .error ⟨.storeOverflow BlobStore.limit, log⟩) (e : AssemblyError) :
    (∃ log, x = .error ⟨e, log⟩) ↔ verdict = some e := by
  cases h with
  | overflowed log => exact absurd rfl (hroom log)
  | @failed e' h log =>
      rw [h]
      constructor
      · rintro ⟨_, hlog⟩
        cases hlog
        rfl
      · rintro ⟨⟩
        exact ⟨log, rfl⟩
  | passed h ha =>
      rw [h]
      constructor
      · rintro ⟨_, hlog⟩
        cases hlog
      · intro hsome
        cases hsome

/-- If the store does not overflow, an outcome that follows a verdict fails exactly if the verdict
says so. -/
theorem exists_error_iff (h : Follows verdict P x)
    (hroom : ∀ log, x ≠ .error ⟨.storeOverflow BlobStore.limit, log⟩) :
    (∃ f, x = .error f) ↔ ∃ e, verdict = some e := by
  constructor
  · rintro ⟨⟨e, log⟩, hf⟩
    exact ⟨e, (h.error_iff hroom e).mp ⟨log, hf⟩⟩
  · rintro ⟨e, he⟩
    obtain ⟨log, hlog⟩ := (h.error_iff hroom e).mpr he
    exact ⟨_, hlog⟩

end Follows

/-- Without a check, the only thing wrong with code is that its text does not expand. -/
theorem codeVerdict_of_unchecked (hs : s.options.validate = false) (kind : Kind) (name raw : String)
    (imports : List String) {e : AssemblyError} :
    a.codeVerdict s kind name raw imports = .error e ↔ s.failure? raw = some e := by
  rw [Setting.failure?_eq_some_iff]
  unfold codeVerdict
  cases s.expand raw with
  | error e' => simp
  | ok own => simp [Setting.validate_eq_ok hs]

/-- Without a check, taking in a fragment fails if its text does. -/
theorem addFragment_follows (hs : s.options.validate = false) (ha : a.Sound done)
    (hkey : (Kind.fragment, name) ∉ done) (hlen : done.length < 2 ^ 31) :
    Follows (s.failure? (Declaration.fragmentCode d))
      (fun b => b.Sound (done ++ [(.fragment, name)]))
      (a.addFragment s name d) := by
  cases h : a.addFragment s name d with
  | error f =>
      obtain ⟨e, log⟩ := f
      rcases addFragment_error ha hkey hlen h with hfull | hverdict
      · obtain rfl : e = _ := hfull
        exact .overflowed log
      · exact .failed ((codeVerdict_of_unchecked hs _ _ _ _).mp hverdict) log
  | ok b =>
      have hstep := addFragment_step h
      refine .passed ?_ (hstep.change.sound ha hlen)
      cases hstep with
      | empty hown => exact Setting.failure?_eq_none_iff.mpr ⟨_, hown⟩
      | stored hown => exact Setting.failure?_eq_none_iff.mpr ⟨_, hown⟩

/-- So it is with the code of a shader module. One that uses a fragment has nothing wrong. -/
theorem shaderModuleVerdict_of_unchecked (hs : s.options.validate = false) {e : AssemblyError} :
    a.shaderModuleVerdict s name d = .error e ↔
      (Declaration.inlineCode? d).bind s.failure? = some e := by
  cases hp : Declaration.codeProperty? d with
  | none => simp [shaderModuleVerdict, Declaration.inlineCode?_of_missing hp, hp]
  | some code =>
      cases href : code.reference? with
      | some target =>
          rw [shaderModuleVerdict_reference hp href, (Declaration.target?_of_reference hp href).2,
            Setting.validate_eq_ok hs]
          simp
      | none =>
          rw [shaderModuleVerdict_inline hp href, (Declaration.inlineCode?_of_inline hp href).2]
          exact codeVerdict_of_unchecked hs _ _ _ _

/-- Without a check, taking in a shader module fails if it has a text as code of its own and the
text fails. -/
theorem addShaderModule_follows (hs : s.options.validate = false) (ha : a.Sound done)
    (hkey : (Kind.shaderModule, name) ∉ done) (hlen : done.length < 2 ^ 31) :
    Follows ((Declaration.inlineCode? d).bind s.failure?)
      (fun b => b.Sound (done ++ [(.shaderModule, name)])) (a.addShaderModule s name d) := by
  cases h : a.addShaderModule s name d with
  | error f =>
      obtain ⟨e, log⟩ := f
      rcases addShaderModule_error ha hkey hlen h with hfull | hverdict
      · obtain rfl : e = _ := hfull
        exact .overflowed log
      · exact .failed ((shaderModuleVerdict_of_unchecked hs).mp hverdict) log
  | ok b =>
      have hstep := addShaderModule_step h
      refine .passed ?_ (hstep.change.sound ha hlen)
      have hverdict := addShaderModule_verdict hstep
      rw [Option.eq_none_iff_forall_ne_some]
      intro e he
      have hfails : a.shaderModuleVerdict s name d = .error e :=
        (shaderModuleVerdict_of_unchecked hs).mpr he
      rw [hverdict] at hfails
      cases hfails

/-! ### What is stored -/

/-- If a step adds the key of its declaration to a list of keys or leaves the list alone, a run adds
the keys of some of its declarations, in order. -/
theorem filter_run {α : Type} {f : Assembly → α → Except Failure Assembly}
    {P : List (Kind × String) → Assembly → Prop} (view : Assembly → List (Kind × String))
    (keyOf : α → Kind × String) (adds : α → Bool) {xs : List α}
    (hstep : ∀ done a x b, keyOf x ∉ done → done.length < 2 ^ 31 → P done a → f a x = .ok b →
      P (done ++ [keyOf x]) b ∧ view b = view a ++ if adds x then [keyOf x] else [])
    (hnodup : (done ++ xs.map keyOf).Nodup) (hlen : (done ++ xs.map keyOf).length < 2 ^ 31)
    (ha : P done a) (h : xs.foldlM f a = .ok c) :
    view c = view a ++ (xs.filter adds).map keyOf := by
  induction xs generalizing a done with
  | nil =>
      cases h
      simp
  | cons x xs ih =>
      obtain ⟨b, hb, h⟩ := foldlM_cons_eq_ok.mp h
      obtain ⟨hfresh, hshort⟩ := fresh_of_nodup hnodup hlen
      rw [append_map_cons] at hnodup hlen
      obtain ⟨hP, hview⟩ := hstep done a x b hfresh hshort ha hb
      rw [ih hnodup hlen hP h, hview, List.append_assoc, List.filter_cons]
      split <;> simp

/-- A module that comes in adds its kind and name. -/
theorem keys_enter {kind : Kind} {own : Bytes} {deps : List UInt32} {m : Module} {blobs : BlobStore}
    (hm : Enters a.table a.container kind name own deps m blobs) :
    (a.enter m blobs).table.keys = a.table.keys ++ [(kind, name)] := by
  rw [← hm.key_eq]
  exact ModuleTable.keys_push a.table m

/-- A fragment becomes a module if it has code. -/
theorem FragmentStep.keys_eq (h : FragmentStep s a name d b) :
    b.table.keys = a.table.keys ++
      if s.yieldsCode (Declaration.fragmentCode d) then [(.fragment, name)] else [] := by
  cases h with
  | empty hown hempty log => simp [Setting.yieldsCode_of_nil hown hempty]
  | stored hown hne hm _ _ _ log =>
      simp only [Setting.yieldsCode_of_ne hown hne, if_true]
      exact keys_enter hm

/-- Whether a shader module becomes a module: in runtime mode, if it has code of its own. -/
def entersModule (s : Setting) (d : Declaration) : Bool :=
  s.options.mode = .runtime && (Declaration.inlineCode? d).any s.yieldsCode

/-- A shader module becomes a module in runtime mode, if it has code of its own. -/
theorem ShaderModuleStep.keys_eq (h : ShaderModuleStep s a name d b) : b.table.keys =
    a.table.keys ++ if entersModule s d then [(.shaderModule, name)] else [] := by
  cases h with
  | missing hp log => simp [entersModule, Declaration.inlineCode?_of_missing hp]
  | dangling hp href _ log => simp [entersModule, Declaration.target?_of_reference hp href]
  | empty hp href hown hempty log =>
      simp [entersModule, Declaration.inlineCode?_of_inline hp href,
        Setting.yieldsCode_of_nil hown hempty]
  | reference hp href _ _ _ _ log =>
      simp [entersModule, Declaration.target?_of_reference hp href, issue]
  | legacy hmode _ _ _ _ _ _ _ log => simp [entersModule, hmode, issue]
  | runtime hmode hp href hown hne _ hm _ _ log =>
      have hadds : entersModule s d = true := by
        simp [entersModule, hmode, Declaration.inlineCode?_of_inline hp href,
          Setting.yieldsCode_of_ne hown hne]
      rw [hadds, if_pos rfl]
      exact keys_enter hm

/-- Whether a shader module gets a handle, given the code kept for fragments: it has code of its
own, or there is code for the fragment that it uses. -/
def takesHandle (s : Setting) (cache : CodeCache) (d : Declaration) : Bool :=
  (Declaration.target? d).any (fun target => !((cache.find? target).getD []).isEmpty) ||
    (Declaration.inlineCode? d).any s.yieldsCode

/-- A handle that is given out adds its kind and name, if they are new. -/
theorem handle_keys_issue (ha : a.Sound done) {key : Kind × String} (hkey : key ∉ done)
    (source : CodeSource) (blobs : BlobStore) :
    (a.issue key source blobs).handles.handles.keys = a.handles.handles.keys ++ [key] := by
  have hnew : key ∉ a.handles.handles.keys := fun hmem => hkey (ha.handles hmem)
  refine (Dict.keys_insert _ _ _).trans ?_
  rw [if_neg hnew]

/-- A shader module takes a handle if it has code of its own, or uses a fragment that has code. -/
theorem ShaderModuleStep.handle_keys_eq (h : ShaderModuleStep s a name d b) (ha : a.Sound done)
    (hkey : (Kind.shaderModule, name) ∉ done) :
    b.handles.handles.keys = a.handles.handles.keys ++
      if takesHandle s a.cache d then [(.shaderModule, name)] else [] := by
  cases h with
  | missing hp log => simp [takesHandle, Declaration.inlineCode?_of_missing hp]
  | dangling hp href hnone log =>
      simp [takesHandle, Declaration.target?_of_reference hp href, hnone]
  | empty hp href hown hempty log =>
      simp [takesHandle, Declaration.inlineCode?_of_inline hp href,
        Setting.yieldsCode_of_nil hown hempty]
  | @reference p target code source blobs hp href hcode hne _ _ log =>
      have htakes : takesHandle s a.cache d = true := by
        simp [takesHandle, Declaration.target?_of_reference hp href, hcode, hne]
      rw [htakes, if_pos rfl]
      exact handle_keys_issue ha hkey source blobs
  | @legacy p own code source blobs _ hp href hown hne _ _ _ log =>
      have htakes : takesHandle s a.cache d = true := by
        simp [takesHandle, Declaration.inlineCode?_of_inline hp href,
          Setting.yieldsCode_of_ne hown hne]
      rw [htakes, if_pos rfl]
      exact handle_keys_issue ha hkey source blobs
  | @runtime p own m blobs blobs' code source _ hp href hown hne _ hm _ _ log =>
      have htakes : takesHandle s a.cache d = true := by
        simp [takesHandle, Declaration.inlineCode?_of_inline hp href,
          Setting.yieldsCode_of_ne hown hne]
      rw [htakes, if_pos rfl]
      exact handle_keys_issue ha hkey source blobs'

/-- Code is kept for a fragment exactly if it is a module, and the code is not empty. -/
theorem CacheSound.find?_iff (hcache : a.CacheSound) (ha : a.Sound done) (name : String) :
    ((a.cache.find? name).isSome ↔ (a.table.fragmentId? name).isSome) ∧
      ((a.cache.find? name).getD [] ≠ [] ↔ (a.table.fragmentId? name).isSome) := by
  rw [hcache name, resolvedFragment?]
  cases hid : a.table.fragmentId? name with
  | none => simp
  | some id =>
      obtain ⟨m, hm, -⟩ := (ModuleTable.lookup_eq_some_iff ha.table).mp hid
      obtain ⟨own, hne, hown⟩ := ha.stored id m hm
      simp [resolved?_eq hm hown, flatten_ne_nil _ _ _ hne]

end Assembly

/-! ### Programs -/

namespace Program

open Assembly

variable {p : Program} {check : Wgsl.Check} {files : Files} {options : Options}

/-- The texts that stand for code, in the order in which they are read: those of the fragments as
they are scheduled, then those that shader modules have of their own as they are declared. -/
def codeTexts (p : Program) : List String :=
  p.scheduledFragments.map (fun e => Declaration.fragmentCode e.2) ++
    p.shaderModules.entries.filterMap fun e => Declaration.inlineCode? e.2

/-- Without a check, an assembly follows the first text of the program that does not expand, in the
order in which texts are taken in. -/
theorem assembleWith_follows (hvalidate : options.validate = false)
    (hlen : p.declarationCount < 2 ^ 31) :
    Follows (p.codeTexts.findSome? (p.setting check files options).failure?) (fun _ => True)
      (p.assembleWith check files options) := by
  have hs : (p.setting check files options).options.validate = false := hvalidate
  obtain ⟨hnodup, hlen'⟩ := Run.fragment_keys hlen
  have hverdict : p.codeTexts.findSome? (p.setting check files options).failure? =
      (p.scheduledFragments.findSome? fun e =>
          (p.setting check files options).failure? (Declaration.fragmentCode e.2)).or
        ((p.shaderModules.entries.findSome? fun e =>
          (Declaration.inlineCode? e.2).bind
            (p.setting check files options).failure?).or none) := by
    rw [codeTexts, List.findSome?_append, List.findSome?_map, Option.or_none]
    congr 1
    induction p.shaderModules.entries with
    | nil => rfl
    | cons e es ih =>
        rw [List.filterMap_cons, List.findSome?_cons]
        cases Declaration.inlineCode? e.2 with
        | none => exact ih
        | some raw =>
            rw [List.findSome?_cons, Option.bind_some, ih]
  rw [hverdict]
  unfold assembleWith
  have hfragments := Follows.run (P := fun done a => a.Sound done) fragmentKey
    (fun e => (p.setting check files options).failure? (Declaration.fragmentCode e.2))
    (fun done a e hkey hshort ha => addFragment_follows (d := e.2) hs ha hkey hshort) hnodup hlen'
    (sound_empty p.schedule.events)
  refine hfragments.bind fun a ha => ?_
  have hshaderModules := Follows.run (P := fun done a => a.Sound done) shaderModuleKey
    (fun e => (Declaration.inlineCode? e.2).bind (p.setting check files options).failure?)
    (fun done a e hkey hshort ha => addShaderModule_follows (d := e.2) hs ha hkey hshort)
    p.nodup_declarations (length_declarations p ▸ hlen) ha
  exact hshaderModules.bind fun b _ => .passed rfl trivial

namespace Run

variable {s : Setting} {a b c : Assembly}

/-- The modules of a finished assembly, by kind and name: fragments with code, and in runtime mode
shader modules with code of their own. -/
theorem keys_eq (r : p.Run s a b c) (hlen : p.declarationCount < 2 ^ 31) :
    b.table.keys =
    (p.scheduledFragments.filter fun e => s.yieldsCode (Declaration.fragmentCode e.2)).map
      fragmentKey ++
      (p.shaderModules.entries.filter fun e => entersModule s e.2).map shaderModuleKey := by
  obtain ⟨hnodup, hlen'⟩ := fragment_keys hlen
  have hfragments := filter_run (P := fun done a => a.Sound done) (fun a => a.table.keys)
    fragmentKey (fun e => s.yieldsCode (Declaration.fragmentCode e.2))
    (fun done a e b _ hshort ha h => ⟨(addFragment_step h).change.sound ha hshort,
      (addFragment_step h).keys_eq⟩) hnodup hlen' (sound_empty _) r.fragments
  have hshaderModules := filter_run (P := fun done a => a.Sound done) (fun a => a.table.keys)
    shaderModuleKey (fun e => entersModule s e.2)
    (fun done a e b _ hshort ha h => ⟨(addShaderModule_step h).change.sound ha hshort,
      (addShaderModule_step h).keys_eq⟩) p.nodup_declarations (length_declarations p ▸ hlen)
    (r.sound_fragments hlen) r.shaderModules
  rw [hshaderModules, hfragments]
  rfl

/-- The shader modules that get a handle. -/
theorem handle_keys_eq (r : p.Run s a b c) (hlen : p.declarationCount < 2 ^ 31) :
    b.handles.handles.keys = a.handles.handles.keys ++
      (p.shaderModules.entries.filter fun e => takesHandle s b.cache e.2).map shaderModuleKey := by
  have hcache : b.cache = a.cache := by
    refine run_induction (P := fun _ b => b.cache = a.cache) ?_ p.nodup_declarations
      (length_declarations p ▸ hlen) rfl r.shaderModules
    intro done a' e b' _ _ _ hcache hstep
    rw [(addShaderModule_step hstep).cache_eq]
    exact hcache
  rw [hcache]
  refine filter_run (P := fun done b => b.Sound done ∧ b.cache = a.cache)
    (fun b => b.handles.handles.keys) shaderModuleKey (fun e => takesHandle s a.cache e.2) ?_
    p.nodup_declarations (length_declarations p ▸ hlen)
    ⟨r.sound_fragments hlen, rfl⟩ r.shaderModules
  intro done a' e b' hkey hshort hP h
  have hstep := addShaderModule_step h
  refine ⟨⟨hstep.change.sound hP.1 hshort, hstep.cache_eq.trans hP.2⟩, ?_⟩
  rw [← hP.2]
  exact hstep.handle_keys_eq hP.1 hkey

end Run

/-- What a finished assembly holds of the declarations of a program. -/
structure Holds (p : Program) (s : Setting) (c : Assembly) : Prop where
  /-- The text of a fragment stands for code. If the code is not empty, the fragment has a module,
  code that is kept and a handle; otherwise it has none of them. -/
  fragment : ∀ name d, p.fragments.find? name = some d →
    ∃ own, s.expand (Declaration.fragmentCode d) = .ok own ∧
      ((c.table.fragmentId? name).isSome ↔ own.text ≠ []) ∧
      ((c.cache.find? name).isSome ↔ own.text ≠ []) ∧
      ((c.handles.handle? .fragment name).isSome ↔ own.text ≠ [])
  /-- A shader module has a handle if it uses a fragment with a module or has code of its own. -/
  handle : ∀ name d, p.shaderModules.find? name = some d →
    ((c.handles.handle? .shaderModule name).isSome ↔
      (∃ target, Declaration.target? d = some target ∧ (c.table.fragmentId? target).isSome) ∨
        ∃ raw own, Declaration.inlineCode? d = some raw ∧ s.expand raw = .ok own ∧ own.text ≠ [])
  /-- A shader module has a module in runtime mode, if it has code of its own. -/
  module : ∀ name d, p.shaderModules.find? name = some d →
    ((c.table.lookup .shaderModule name).isSome ↔ s.options.mode = .runtime ∧
      ∃ raw own, Declaration.inlineCode? d = some raw ∧ s.expand raw = .ok own ∧ own.text ≠ [])
  /-- There are no other modules. -/
  count : c.table.count =
    p.fragments.entries.countP (fun e => s.yieldsCode (Declaration.fragmentCode e.2)) +
      if s.options.mode = .runtime then
        p.shaderModules.entries.countP fun e => (Declaration.inlineCode? e.2).any s.yieldsCode
      else 0

/-- A shader module's own text yields code exactly if there is one and it expands to something. -/
theorem any_yieldsCode_iff {s : Setting} {d : Declaration} :
    (Declaration.inlineCode? d).any s.yieldsCode = true ↔
      ∃ raw own, Declaration.inlineCode? d = some raw ∧ s.expand raw = .ok own ∧ own.text ≠ [] := by
  simp only [Option.any_eq_true, Setting.yieldsCode_iff]
  constructor
  · rintro ⟨raw, hraw, own, hown⟩
    exact ⟨raw, own, hraw, hown⟩
  · rintro ⟨raw, own, hraw, hown⟩
    exact ⟨raw, hraw, own, hown⟩

/-- A shader module is among those with some property if it has the property itself: names are not
used twice. -/
theorem mem_shaderModule_keys_iff {name : String} {d : Declaration} {adds : Declaration → Bool}
    (hd : p.shaderModules.find? name = some d) :
    (Kind.shaderModule, name) ∈
      (p.shaderModules.entries.filter fun e => adds e.2).map shaderModuleKey ↔
      adds d = true := by
  constructor
  · intro hmem
    obtain ⟨⟨name', d'⟩, he, hname⟩ := List.mem_map.mp hmem
    obtain ⟨he, hadds⟩ := List.mem_filter.mp he
    obtain rfl : name' = name := (Prod.mk.inj hname).2
    have hd' := (Dict.find?_eq_some_iff _ _ _).mpr he
    obtain rfl : d = d' := Option.some.inj (hd.symm.trans hd')
    exact hadds
  · intro hadds
    have he := (Dict.find?_eq_some_iff _ _ _).mp hd
    exact List.mem_map.mpr ⟨(name, d), List.mem_filter.mpr ⟨he, hadds⟩, rfl⟩

namespace Run

variable {s : Setting} {a b c : Assembly}

/-- A shader module's key comes from the shader modules, not from the fragments. -/
theorem shaderModule_mem_append_iff {name : String} {fragments others : List (Kind × String)}
    (hfragments : fragments ⊆ p.scheduledFragments.map fragmentKey) :
    (Kind.shaderModule, name) ∈ fragments ++ others ↔ (Kind.shaderModule, name) ∈ others := by
  rw [List.mem_append]
  refine or_iff_right fun hmem => ?_
  obtain ⟨e, -, he⟩ := List.mem_map.mp (hfragments hmem)
  cases he

/-- Success: what is stored is what the declarations say. -/
theorem holds (r : p.Run s a b c) (hlen : p.declarationCount < 2 ^ 31) : p.Holds s b := by
  obtain ⟨hsound, -⟩ := r.sound_shaderModules hlen
  obtain ⟨-, hcache⟩ := r.cacheSound hlen
  obtain ⟨-, hhandles⟩ := r.dense hlen
  have hkeys := r.keys_eq hlen
  refine ⟨?_, ?_, ?_, ?_⟩
  · intro name d hd
    have hmem := p.scheduledFragments_perm.mem_iff.mpr ((Dict.find?_eq_some_iff _ _ _).mp hd)
    obtain ⟨before, after, hsplit⟩ := List.append_of_mem hmem
    obtain ⟨own, hown, hrecord⟩ := r.fragment_record hlen hsplit
    have hid : (b.table.fragmentId? name).isSome ↔ own.text ≠ [] := by
      rcases hrecord with ⟨hempty, hnone⟩ | ⟨hne, m, hid, -⟩
      · simp [hempty, hnone]
      · simp [hne, hid]
    refine ⟨own, hown, hid, ?_, ?_⟩
    · rw [(hcache.find?_iff hsound name).1, hid]
    · rw [hhandles, hid]
  · intro name d hd
    have hhandle : (b.handles.handle? .shaderModule name).isSome ↔
        (Kind.shaderModule, name) ∈ b.handles.handles.keys := by
      rw [Option.isSome_iff_ne_none, ne_eq, ← not_iff_not, not_not]
      exact Dict.find?_eq_none_iff _ _
    rw [hhandle, r.handle_keys_eq hlen,
      shaderModule_mem_append_iff (r.sound_fragments hlen).handles,
      mem_shaderModule_keys_iff hd, takesHandle, Bool.or_eq_true, any_yieldsCode_iff]
    apply or_congr_left
    rw [Option.any_eq_true]
    apply exists_congr
    intro target
    apply and_congr_right
    intro _
    rw [← (hcache.find?_iff hsound target).2]
    simp
  · intro name d hd
    have hlookup : (b.table.lookup .shaderModule name).isSome ↔
        (Kind.shaderModule, name) ∈ b.table.keys := by
      rw [Option.isSome_iff_ne_none, ne_eq, ← not_iff_not, not_not]
      exact ModuleTable.lookup_eq_none_iff
    have hfragments : (p.scheduledFragments.filter fun e =>
        s.yieldsCode (Declaration.fragmentCode e.2)).map fragmentKey ⊆
          p.scheduledFragments.map fragmentKey :=
      List.map_subset _ (List.filter_subset_self _)
    rw [hlookup, hkeys, shaderModule_mem_append_iff hfragments, mem_shaderModule_keys_iff hd,
      entersModule, Bool.and_eq_true, decide_eq_true_iff, any_yieldsCode_iff]
  · rw [ModuleTable.count_eq_length_keys, hkeys, List.length_append, List.length_map,
      List.length_map, ← List.countP_eq_length_filter, ← List.countP_eq_length_filter,
      p.scheduledFragments_perm.countP_eq]
    congr 1
    by_cases hmode : s.options.mode = .runtime
    · simp [entersModule, hmode]
    · simp [entersModule, hmode]

end Run

/-- The first text for which there is no code, and why there is none. -/
theorem findSome?_failure?_iff {s : Setting} {e : AssemblyError} {texts : List String} :
    texts.findSome? s.failure? = some e ↔ ∃ before raw after, texts = before ++ raw :: after ∧
      s.expand raw = .error e ∧ ∀ text ∈ before, ∃ own, s.expand text = .ok own := by
  rw [List.findSome?_eq_some_iff]
  simp only [Setting.failure?_eq_some_iff, Setting.failure?_eq_none_iff]

/-- Some text is the first to fail exactly if some text fails. -/
theorem exists_failure_iff {s : Setting} {texts : List String} :
    (∃ e, texts.findSome? s.failure? = some e) ↔ ∃ raw ∈ texts, ∃ e, s.expand raw = .error e := by
  rw [← Option.isSome_iff_exists, List.findSome?_isSome_iff]
  simp only [Option.isSome_iff_exists, Setting.failure?_eq_some_iff]

/-- The texts of a program are the codes of its fragments and the own texts of its shader
modules. -/
theorem mem_codeTexts_iff {raw : String} : raw ∈ p.codeTexts ↔
    (∃ name d, p.fragments.find? name = some d ∧ Declaration.fragmentCode d = raw) ∨
      ∃ name d, p.shaderModules.find? name = some d ∧ Declaration.inlineCode? d = some raw := by
  simp only [codeTexts, List.mem_append, List.mem_map, List.mem_filterMap, Prod.exists,
    Dict.find?_eq_some_iff, p.scheduledFragments_perm.mem_iff]

/-- **How an assembly ends.** Let code not be checked, and let there be room for all of it.

An assembly fails with an error exactly if the error is that of the first text that fails, among the
texts of the fragments as scheduled and then those of the shader modules as declared. So it fails
exactly if the text of a fragment fails, used or not, or a text that a shader module has as code of
its own.

If it does not fail, the declarations say what it holds (`Holds`). -/
theorem outcome (hlen : p.declarationCount < 2 ^ 31) (hvalidate : options.validate = false)
    (hroom : ∀ log, p.assembleWith check files options ≠
      .error ⟨.storeOverflow BlobStore.limit, log⟩) :
    (∀ e, (∃ log, p.assembleWith check files options = .error ⟨e, log⟩) ↔
      ∃ before raw after, p.codeTexts = before ++ raw :: after ∧
        (p.setting check files options).expand raw = .error e ∧
        ∀ text ∈ before, ∃ own, (p.setting check files options).expand text = .ok own) ∧
    ((∃ f, p.assembleWith check files options = .error f) ↔
      (∃ name d e, p.fragments.find? name = some d ∧
        (p.setting check files options).expand (Declaration.fragmentCode d) = .error e) ∨
      ∃ name d raw e, p.shaderModules.find? name = some d ∧ Declaration.inlineCode? d = some raw ∧
        (p.setting check files options).expand raw = .error e) ∧
    ∀ c, p.assembleWith check files options = .ok c →
    p.Holds (p.setting check files options) c := by
  have hfollows :
      Follows (p.codeTexts.findSome? (p.setting check files options).failure?) (fun _ => True)
      (p.assembleWith check files options) := assembleWith_follows hvalidate hlen
  refine ⟨?_, ?_, ?_⟩
  · intro e
    rw [hfollows.error_iff hroom, findSome?_failure?_iff]
  · rw [hfollows.exists_error_iff hroom, exists_failure_iff]
    constructor
    · rintro ⟨raw, hraw, e, he⟩
      rcases mem_codeTexts_iff.mp hraw with ⟨name, d, hd, rfl⟩ | ⟨name, d, hd, hcode⟩
      · exact .inl ⟨name, d, e, hd, he⟩
      · exact .inr ⟨name, d, raw, e, hd, hcode, he⟩
    · rintro (⟨name, d, e, hd, he⟩ | ⟨name, d, raw, e, hd, hcode, he⟩)
      · exact ⟨_, mem_codeTexts_iff.mpr (.inl ⟨name, d, hd, rfl⟩), e, he⟩
      · exact ⟨raw, mem_codeTexts_iff.mpr (.inr ⟨name, d, hd, hcode⟩), e, he⟩
  · intro c h
    obtain ⟨a, b, r⟩ := exists_run h
    have hholds := r.holds hlen
    obtain ⟨log, rfl⟩ := r.finished
    refine ⟨?_, ?_, ?_, ?_⟩ <;> simp only [finish_table, finish_cache, finish_handles]
    · exact hholds.fragment
    · exact hholds.handle
    · exact hholds.module
    · exact hholds.count

/-- A program of which two files are missing. The fragment that is declared first needs the other
one. -/
def unreadable : Program :=
  { empty with
    fragments := .ofList
      [("late", fragmentOf "./late.wgsl" ["early"]), ("early", fragmentOf "./early.wgsl" [])] }

/-- A fragment without code has no handle, a shader module that uses a fragment has a handle and no
module, and one with code of its own has both. Of two files that are missing, the error is about the
one whose fragment is taken in first. -/
theorem sample_outcome : sample.declarationCount < 2 ^ 31 ∧ unreadable.declarationCount < 2 ^ 31 ∧
    (∃ c, sample.assembleWith noCheck noFiles { Options.default with mode := .runtime } = .ok c ∧
      c.table.count = 6 ∧ (c.handles.handle? .fragment "blank").isSome = false ∧
      (c.handles.handle? .shaderModule "main").isSome ∧
      (c.table.lookup .shaderModule "main").isSome = false ∧
      (c.table.lookup .shaderModule "post").isSome) ∧
    ∃ log, unreadable.assembleWith noCheck noFiles .default =
      .error ⟨.fileUnreadable "././early.wgsl" .notFound, log⟩ := by
  have hlen : sample.declarationCount < 2 ^ 31 := by decide
  have hlen' : unreadable.declarationCount < 2 ^ 31 := by decide
  have hok :
      (sample.assembleWith noCheck noFiles { Options.default with mode := .runtime }).isOk := by
    decide +kernel
  have hfails :
      ((unreadable.assembleWith noCheck noFiles .default).mapError Failure.error).map
        (fun _ => ()) =
      .error (.fileUnreadable "././early.wgsl" .notFound) := by decide +kernel
  refine ⟨hlen, hlen', ?_, ?_⟩
  · cases h : sample.assembleWith noCheck noFiles { Options.default with mode := .runtime } with
    | error f =>
        rw [h] at hok
        cases hok
    | ok c =>
        obtain ⟨-, -, hholds⟩ := outcome hlen rfl fun log hlog => by
          rw [h] at hlog
          cases hlog
        obtain ⟨hfragment, hhandle, hmodule, hcount⟩ := hholds c h
        obtain ⟨blank, hblank, -, -, hblank'⟩ := hfragment "blank" _ rfl
        obtain ⟨noise, hnoise, hnoise', -⟩ := hfragment "noise" _ rfl
        obtain rfl : ⟨[], true⟩ = blank := Except.ok.inj hblank
        obtain rfl : ⟨Utf8.encode "n", true⟩ = noise := Except.ok.inj hnoise
        refine ⟨c, rfl, hcount.trans (by decide +kernel), ?_, ?_, ?_, ?_⟩
        · simpa using hblank'
        · exact (hhandle "main" _ rfl).mpr (.inl ⟨"noise", rfl, hnoise'.mpr (by decide)⟩)
        · rw [← Bool.not_eq_true, hmodule "main" _ rfl]
          rintro ⟨-, raw, own, hraw, -⟩
          cases hraw
        · exact (hmodule "post" _ rfl).mpr
            ⟨rfl, "p", ⟨Utf8.encode "p", true⟩, rfl, by rfl, by decide⟩
  · have hroom : ∀ log, unreadable.assembleWith noCheck noFiles .default ≠
        .error ⟨.storeOverflow BlobStore.limit, log⟩ := by
      intro log hlog
      rw [hlog] at hfails
      cases hfails
    exact ((outcome hlen' rfl hroom).1 _).mpr ⟨[], "./early.wgsl", ["./late.wgsl"],
      by decide +kernel, by rfl, by simp⟩

end Program

end ShaderPack
