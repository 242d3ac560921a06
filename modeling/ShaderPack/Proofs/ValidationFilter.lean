import ShaderPack.Proofs.Agenda

/-!
# The check is a filter

With the check of code switched on, an assembly does what it does without, or it ends because
flattened code is refused. Which code is refused is up to the check; it is any function of the text.

* `Setting.checked`: a setting with the check switched on or off.
* `Filters`: how an outcome with the check follows from the outcome without, given the verdict on a
  declaration.
* `Intact.take_filters`: one declaration. The verdict is that on its pending code.
* `run_eq_ok_iff`, `exists_first_refused`, `run_error`: all declarations.
* `Program.validation_filters`: the assembly of a program.
-/

namespace ShaderPack

/-- The error says that flattened code was refused. -/
def AssemblyError.IsRefusal (e : AssemblyError) : Prop :=
  ∃ kind name text diagnostic, e = .invalidCode kind name text diagnostic

namespace Setting

/-- The setting with the check switched on or off. -/
def checked (s : Setting) (on : Bool) : Setting :=
  { s with options := { s.options with validate := on } }

/-- Why flattened code of a declaration is refused, if it is. -/
def refusal? (s : Setting) (kind : Kind) (name : String) (code : Bytes) : Option AssemblyError :=
  (s.check (Utf8.decodeLossy code)).map (.invalidCode kind name (Utf8.decodeLossy code))

variable {s : Setting} {kind : Kind} {name : String} {code : Bytes}

/-- Whether code is checked does not change what texts expand to. -/
theorem expand_checked (s : Setting) (on : Bool) (raw : String) :
    (s.checked on).expand raw = s.expand raw :=
  rfl

/-- Code is not refused exactly if the check finds nothing wrong with its text. -/
theorem refusal?_eq_none_iff :
    s.refusal? kind name code = none ↔ s.check (Utf8.decodeLossy code) = none :=
  Option.map_eq_none_iff

/-- Code is refused with the text that was checked and what is wrong with it. -/
theorem refusal?_eq_some_iff {e : AssemblyError} : s.refusal? kind name code = some e ↔
    ∃ diagnostic, s.check (Utf8.decodeLossy code) = some diagnostic ∧
      .invalidCode kind name (Utf8.decodeLossy code) diagnostic = e :=
  Option.map_eq_some_iff

/-- With the check on, code that is not empty fails exactly if it is refused. -/
theorem validate_checked (s : Setting) (kind : Kind) (name : String) (hne : code ≠ []) :
    (s.checked true).validate kind name code =
      match s.refusal? kind name code with
      | none => .ok ()
      | some e => .error e := by
  have hempty : code.isEmpty = false := by simpa using hne
  unfold validate refusal?
  simp only [checked, hempty, Bool.not_false, Bool.and_true, if_true]
  cases s.check (Utf8.decodeLossy code) <;> rfl

end Setting

namespace Assembly

variable {s : Setting} {a b c : Assembly} {x y : Declared} {kind : Kind} {name : String}
  {d : Declaration} {code : Bytes}

/-! ### One declaration -/

/-- Two outcomes, with the check and without, where `refused?` is what the check has against the
code. Without objection they are the same. Otherwise the first is a failure: for that reason, or
because both fail before the check is made. -/
inductive Filters : (refused? : Option AssemblyError) → (on off : Except Failure Assembly) → Prop
  /-- The check makes no difference. -/
  | passed (outcome : Except Failure Assembly) : Filters none outcome outcome
  /-- Both fail before the check. -/
  | failed (refused? : Option AssemblyError) (f : Failure) : Filters refused? (.error f) (.error f)
  /-- The code is refused. -/
  | refused (e : AssemblyError) (log : Array Event) (off : Except Failure Assembly) :
      Filters (some e) (.error ⟨e, log⟩) off

namespace Filters

variable {refused? : Option AssemblyError} {on off : Except Failure Assembly}

/-- What is done before the check is the same for both. -/
theorem attempt_bind {α : Type} {z : Except AssemblyError α} {g g' : α → Except Failure Assembly}
    (h : ∀ u, z = .ok u → Filters refused? (g u) (g' u)) :
    Filters refused? (a.attempt z >>= g) (a.attempt z >>= g') := by
  cases z with
  | error e => exact .failed refused? ⟨e, a.log⟩
  | ok u => exact h u rfl

/-- A filtered outcome is the unfiltered one, if nothing is refused. -/
theorem ok_iff (h : Filters refused? on off) : on = .ok b ↔ off = .ok b ∧ refused? = none := by
  cases h with
  | passed outcome => simp
  | failed refused? f => simp
  | refused e log off => simp

/-- A filtered failure is the unfiltered one, or a refusal. -/
theorem error_cases {f : Failure} (h : Filters refused? on off) (hon : on = .error f) :
    off = .error f ∨ refused? = some f.error := by
  cases h with
  | passed outcome => exact .inl hon
  | failed refused? f' => exact .inl hon
  | refused e log off =>
      cases hon
      exact .inr rfl

end Filters

/-- Storing a shader with the check on is storing it without, filtered by the refusal of its
code. -/
theorem addShader_filters {module? : Option UInt32} (hne : code ≠ []) :
    Filters (s.refusal? kind name code)
      (a.attempt (a.addShader (s.checked true) kind name code module?))
      (a.attempt (a.addShader (s.checked false) kind name code module?)) := by
  have hoff : (s.checked false).validate kind name code = .ok () := Setting.validate_eq_ok rfl _ _ _
  have hon := s.validate_checked kind name hne
  cases hrefusal : s.refusal? kind name code with
  | none =>
      rw [hrefusal] at hon
      have hsame : a.addShader (s.checked true) kind name code module? =
          a.addShader (s.checked false) kind name code module? := by
        unfold addShader
        rw [hon, hoff]
        rfl
      rw [hsame]
      exact .passed _
  | some e =>
      rw [hrefusal] at hon
      have herror : a.addShader (s.checked true) kind name code module? = .error e := by
        unfold addShader
        rw [hon]
      rw [herror]
      exact .refused e a.log _

/-- What the check has against a declaration that is taken in next. -/
def refusal? (s : Setting) (a : Assembly) (x : Declared) : Option AssemblyError :=
  (a.pendingCode? s x).bind (s.refusal? x.kind x.name)

/-- Where no code is pending, nothing is refused. -/
theorem refusal?_of_none (h : a.pendingCode? s x = none) : a.refusal? s x = none := by
  rw [refusal?, h, Option.bind_none]

/-- Where code is pending, it is that code that is refused or not. -/
theorem refusal?_of_some (h : a.pendingCode? s x = some code) :
    a.refusal? s x = s.refusal? x.kind x.name code := by
  rw [refusal?, h, Option.bind_some]

/-- So it is with a fragment. -/
theorem Intact.addFragment_filters (h : a.Intact) (name : String) (d : Declaration) :
    Filters (a.refusal? s ⟨.fragment, name, d⟩) (a.addFragment (s.checked true) name d)
      (a.addFragment (s.checked false) name d) := by
  unfold addFragment
  rw [Setting.expand_checked, Setting.expand_checked]
  apply Filters.attempt_bind
  intro own hown
  by_cases hempty : own.text = []
  · rw [refusal?_of_none (x := ⟨.fragment, name, d⟩) (flattened?_nil hown hempty)]
    simp only [hempty, List.isEmpty_nil, if_true]
    exact .passed _
  · have hisEmpty : own.text.isEmpty = false := by simpa using hempty
    simp only [hisEmpty, Bool.false_eq_true, if_false]
    apply Filters.attempt_bind
    rintro ⟨a', id⟩ hadd
    obtain ⟨m, blobs, hm, rfl, rfl⟩ := addModule_eq_ok.mp hadd
    have hflat :=
      h.flatten_imports (ModuleTable.extends_push _ m) (BlobStore.keeps_of_add? hm.added)
      (Declaration.imports d) own.text
    rw [refusal?_of_some (x := ⟨.fragment, name, d⟩) (flattened?_eq hown hempty), ← hflat]
    exact addShader_filters (flatten_ne_nil _ _ _ hempty)

/-- So it is with a shader module that uses a fragment. -/
theorem addReference_filters (h : a.Intact) {p : Property} {target : String}
    (hp : Declaration.codeProperty? d = some p) (href : p.reference? = some target) :
    Filters (a.refusal? s ⟨.shaderModule, name, d⟩) (a.addReference (s.checked true) name target)
      (a.addReference (s.checked false) name target) := by
  have hpending : a.pendingCode? s ⟨.shaderModule, name, d⟩ = a.cache.find? target :=
    pendingCode?_reference hp href
  unfold addReference
  cases hcode : a.cache.find? target with
  | none =>
      rw [refusal?_of_none (hpending.trans hcode)]
      exact .passed _
  | some code =>
      rw [refusal?_of_some (hpending.trans hcode)]
      exact addShader_filters (h.cached target code hcode)

/-- So it is with a shader module that has code of its own. -/
theorem addInline_filters {p : Property} (hp : Declaration.codeProperty? d = some p)
    (href : p.reference? = none) :
    Filters (a.refusal? s ⟨.shaderModule, name, d⟩)
      (a.addInline (s.checked true) name (p.text?.getD "") d)
      (a.addInline (s.checked false) name (p.text?.getD "") d) := by
  have hpending : a.pendingCode? s ⟨.shaderModule, name, d⟩ =
      a.flattened? s (p.text?.getD "") (Declaration.imports d) := pendingCode?_inline hp href
  unfold addInline
  rw [Setting.expand_checked, Setting.expand_checked]
  apply Filters.attempt_bind
  intro own hown
  by_cases hempty : own.text = []
  · rw [refusal?_of_none (hpending.trans (flattened?_nil hown hempty))]
    simp only [hempty, List.isEmpty_nil, if_true]
    exact .passed _
  · have hisEmpty : own.text.isEmpty = false := by simpa using hempty
    simp only [hisEmpty, Bool.false_eq_true, if_false]
    rw [refusal?_of_some (hpending.trans (flattened?_eq hown hempty))]
    have hmode (on : Bool) : (s.checked on).options.mode = s.options.mode := rfl
    rw [hmode, hmode]
    cases s.options.mode with
    | legacy => exact addShader_filters (flatten_ne_nil _ _ _ hempty)
    | runtime =>
        apply Filters.attempt_bind
        rintro ⟨a', id⟩ -
        exact addShader_filters (flatten_ne_nil _ _ _ hempty)

/-- With the check, a declaration is taken in as without, unless its flattened code is refused. -/
theorem Intact.take_filters (h : a.Intact) (x : Declared) :
    Filters (a.refusal? s x) (a.take (s.checked true) x) (a.take (s.checked false) x) := by
  obtain ⟨kind, name, d⟩ := x
  cases kind with
  | fragment => exact h.addFragment_filters name d
  | shaderModule =>
      show Filters _ (a.addShaderModule (s.checked true) name d)
          (a.addShaderModule (s.checked false) name d)
      unfold addShaderModule
      split
      · next hp =>
        rw [refusal?_of_none (pendingCode?_missing hp)]
        exact .passed _
      · next p hp =>
        split
        · next target href => exact addReference_filters h hp href
        · next href => exact addInline_filters hp href

/-! ### Failures without the check -/

/-- A file that cannot be read is no refusal. -/
theorem load_not_refusal {files : Files} {base raw : String} {e : AssemblyError}
    (h : Source.load files base raw = .error e) : ¬ e.IsRefusal := by
  unfold Source.load Source.ofFile at h
  rintro ⟨_, _, _, _, rfl⟩
  repeat' split at h
  all_goals cases h

/-- A text that does not expand is no refusal. -/
theorem expand_not_refusal {raw : String} {e : AssemblyError} (h : s.expand raw = .error e) :
    ¬ e.IsRefusal := by
  unfold Setting.expand at h
  split at h
  · next hload =>
    cases h
    exact load_not_refusal hload
  · split at h
    · cases h
      rintro ⟨_, _, _, _, ⟨⟩⟩
    · cases h

/-- A module that cannot be entered is no refusal. -/
theorem addModule_not_refusal {own : Bytes} {deps : List UInt32} {e : AssemblyError}
    (h : a.addModule kind name own deps = .error e) : ¬ e.IsRefusal := by
  unfold addModule at h
  rintro ⟨_, _, _, _, rfl⟩
  simp only at h
  repeat' split at h
  all_goals cases h

/-- Without the check, a shader that cannot be stored is no refusal. -/
theorem addShader_not_refusal {module? : Option UInt32} {f : Failure}
    (h : a.attempt (a.addShader (s.checked false) kind name code module?) = .error f) :
    ¬ f.error.IsRefusal := by
  rcases addShader_error (attempt_eq_error h) with hfull | hinvalid
  · rw [hfull]
    rintro ⟨_, _, _, _, ⟨⟩⟩
  · rw [Setting.validate_eq_ok rfl] at hinvalid
    cases hinvalid

/-- So a fragment is never refused without the check. -/
theorem addFragment_not_refusal {f : Failure}
    (h : a.addFragment (s.checked false) name d = .error f) : ¬ f.error.IsRefusal := by
  unfold addFragment at h
  rcases attempt_bind_eq_error h with hown | ⟨own, -, h⟩
  · exact expand_not_refusal hown
  simp only at h
  split at h
  · cases h
  · rcases attempt_bind_eq_error h with hadd | ⟨⟨a', id⟩, -, h⟩
    · exact addModule_not_refusal hadd
    · exact addShader_not_refusal h

/-- Nor is a shader module with code of its own. -/
theorem addInline_not_refusal {raw : String} {f : Failure}
    (h : a.addInline (s.checked false) name raw d = .error f) : ¬ f.error.IsRefusal := by
  unfold addInline at h
  rcases attempt_bind_eq_error h with hown | ⟨own, -, h⟩
  · exact expand_not_refusal hown
  simp only at h
  split at h
  · cases h
  · split at h
    · exact addShader_not_refusal h
    · rcases attempt_bind_eq_error h with hadd | ⟨⟨a', id⟩, -, h⟩
      · exact addModule_not_refusal hadd
      · exact addShader_not_refusal h

/-- Without the check no code is refused. -/
theorem take_not_refusal {f : Failure} (h : a.take (s.checked false) x = .error f) :
    ¬ f.error.IsRefusal := by
  obtain ⟨kind, name, d⟩ := x
  cases kind with
  | fragment => exact addFragment_not_refusal h
  | shaderModule =>
      replace h : a.addShaderModule (s.checked false) name d = .error f := h
      unfold addShaderModule at h
      split at h
      · cases h
      · split at h
        · unfold addReference at h
          split at h
          · cases h
          · exact addShader_not_refusal h
        · exact addInline_not_refusal h

/-! ### All declarations -/

/-- If the declaration has a handle, its flattened code is accepted by the check. -/
def Passes (s : Setting) (a : Assembly) (x : Declared) : Prop :=
  (a.handles.handle? x.kind x.name).isSome →
    ∃ code, a.resolvedCode? s x = some code ∧ s.check (Utf8.decodeLossy code) = none

variable {xs ys : List Declared} {f : Failure}

/-- A declaration passes if the check had nothing against its code when it was taken in. -/
theorem Taken.passes_iff (h : Taken (s.checked false) a x c) :
    c.Passes s x ↔ a.refusal? s x = none := by
  have hresolved : c.resolvedCode? s x = a.pendingCode? s x := h.resolved
  have hhandle : (c.handles.handle? x.kind x.name).isSome ↔ (a.pendingCode? s x).isSome :=
    h.handle_iff
  unfold Passes
  rw [hresolved, hhandle]
  cases hpending : a.pendingCode? s x with
  | none => simp [refusal?_of_none hpending]
  | some code =>
      rw [refusal?_of_some hpending, Setting.refusal?_eq_none_iff]
      simp

/-- A run with the check succeeds as the run without does, if everything passes. -/
theorem Ready.run_eq_ok_iff (h : a.Ready xs) : xs.foldlM (take (s.checked true)) a = .ok c ↔
    xs.foldlM (take (s.checked false)) a = .ok c ∧ ∀ x ∈ xs, c.Passes s x := by
  induction xs generalizing a with
  | nil => simp
  | cons x xs ih =>
      rw [foldlM_cons_eq_ok, foldlM_cons_eq_ok, List.forall_mem_cons]
      have hfilters := h.intact.take_filters (s := s) x
      constructor
      · rintro ⟨b, hon, hrun⟩
        obtain ⟨hoff, hnone⟩ := hfilters.ok_iff.mp hon
        obtain ⟨hrun, hpasses⟩ := (ih (h.next hoff)).mp hrun
        exact ⟨⟨b, hoff, hrun⟩, (h.taken_run hoff hrun).passes_iff.mpr hnone, hpasses⟩
      · rintro ⟨⟨b, hoff, hrun⟩, hpass, hpasses⟩
        -- what passes at the end of the run was not refused when it was taken in
        have hnone := (h.taken_run hoff hrun).passes_iff.mp hpass
        exact ⟨b, hfilters.ok_iff.mpr ⟨hoff, hnone⟩, (ih (h.next hoff)).mpr ⟨hrun, hpasses⟩⟩

/-- What is said to be refused is a refusal. -/
theorem isRefusal_of_refusal? {e : AssemblyError} (h : a.refusal? s x = some e) : e.IsRefusal := by
  obtain ⟨code, -, hcode⟩ := Option.bind_eq_some_iff.mp h
  obtain ⟨diagnostic, -, rfl⟩ := Setting.refusal?_eq_some_iff.mp hcode
  exact ⟨_, _, _, diagnostic, rfl⟩

/-- A run with the check fails as the run without does, or code is refused. -/
theorem Ready.run_error (h : a.Ready xs) (hon : xs.foldlM (take (s.checked true)) a = .error f) :
    xs.foldlM (take (s.checked false)) a = .error f ∨ f.error.IsRefusal := by
  induction xs generalizing a with
  | nil => cases hon
  | cons x xs ih =>
      have hfilters := h.intact.take_filters (s := s) x
      rw [foldlM_cons_eq_error] at hon ⊢
      rcases hon with hon | ⟨b, hon, hrun⟩
      · rcases hfilters.error_cases hon with hoff | hrefused
        · exact .inl (.inl hoff)
        · exact .inr (isRefusal_of_refusal? hrefused)
      · obtain ⟨hoff, -⟩ := hfilters.ok_iff.mp hon
        exact (ih (h.next hoff) hrun).imp_left fun hrun => .inr ⟨b, hoff, hrun⟩

/-- If code is refused, everything before it was taken in as without the check, and passed. -/
theorem Ready.exists_first_refused (h : a.Ready xs)
    (hon : xs.foldlM (take (s.checked true)) a = .error f) (hf : f.error.IsRefusal) :
    ∃ before x after b, xs = before ++ x :: after ∧
      before.foldlM (take (s.checked false)) a = .ok b ∧ b.refusal? s x = some f.error ∧
        ∀ y ∈ before, b.Passes s y ∧ ∀ raw, y.text? = some raw → s.failure? raw = none := by
  induction xs generalizing a with
  | nil => cases hon
  | cons x xs ih =>
      have hfilters := h.intact.take_filters (s := s) x
      rcases foldlM_cons_eq_error.mp hon with hon | ⟨b, hon, hrun⟩
      -- the first declaration is the refused one, or it is taken in and the other comes later
      · have hrefused :=
          (hfilters.error_cases hon).resolve_left fun hoff => take_not_refusal hoff hf
        exact ⟨[], x, xs, a, rfl, rfl, hrefused, fun y hy => absurd hy List.not_mem_nil⟩
      · obtain ⟨hoff, hnone⟩ := hfilters.ok_iff.mp hon
        obtain ⟨before, y, after, c, rfl, hbefore, hrefused, hpasses⟩ := ih (h.next hoff) hrun
        have hready : a.Ready (x :: before) := of_append h
        have htaken := hready.taken_run hoff hbefore
        refine ⟨x :: before, y, after, c, rfl, foldlM_cons_eq_ok.mpr ⟨b, hoff, hbefore⟩, hrefused,
          ?_⟩
        exact List.forall_mem_cons.mpr ⟨⟨htaken.passes_iff.mpr hnone, htaken.readable⟩, hpasses⟩

/-- In a run without the check, what passes at some time passes in the end. -/
theorem Ready.passes_run (h : a.Ready (xs ++ ys))
    (hxs : xs.foldlM (take (s.checked false)) a = .ok b)
    (hys : ys.foldlM (take (s.checked false)) b = .ok c) (hx : x ∈ xs) (hpasses : b.Passes s x) :
    c.Passes s x := by
  have hbefore : ∀ y ∈ ys, x.Before y := (List.pairwise_append.mp h.ordered).2.2 x hx
  obtain ⟨hcode, hhandle⟩ := (h.run hxs).intact.kept_run hbefore hys
  have hcode' : c.resolvedCode? s x = b.resolvedCode? s x := hcode
  unfold Passes at hpasses ⊢
  rwa [hcode', hhandle]

end Assembly

namespace Program

open Assembly

variable {p : Program} {check : Wgsl.Check} {files : Files} {options : Options}

/-- The end of an assembly changes no code. -/
theorem resolvedCode?_completed (s : Setting) (mode : Mode) (a : Assembly) (x : Declared) :
    (p.completed mode a).resolvedCode? s x = a.resolvedCode? s x := by
  cases mode <;> rfl

/-- The end of an assembly changes neither code nor handles. -/
theorem passes_completed (s : Setting) (mode : Mode) (a : Assembly) (x : Declared) :
    (p.completed mode a).Passes s x ↔ a.Passes s x := by
  cases mode <;> exact Iff.rfl

/-- The run over a program's declarations, with the check or without. -/
def checkedRun (check : Wgsl.Check) (files : Files) (options : Options) (p : Program) (on : Bool) :
    Except Failure Assembly :=
  p.agenda.foldlM (take ((p.setting check files options).checked on))
    (Assembly.empty.note p.schedule.events)

/-- An assembly succeeds exactly if the run does, with the check on or off. -/
theorem assembleWith_eq_ok_iff_checkedRun {on : Bool} {c : Assembly} :
    p.assembleWith check files { options with validate := on } = .ok c ↔
      ∃ a, p.checkedRun check files options on = .ok a ∧ p.completed options.mode a = c :=
  assembleWith_eq_ok

/-- It fails exactly if the run does, and with the same failure. -/
theorem assembleWith_eq_error_iff_checkedRun {on : Bool} {f : Failure} :
    p.assembleWith check files { options with validate := on } = .error f ↔
      p.checkedRun check files options on = .error f :=
  assembleWith_eq_error

/-- With the check on, an assembly succeeds exactly if it does without, and no code that it stores
is refused; it gives the same. -/
theorem assembleWith_checked_eq_ok {c : Assembly} :
    p.assembleWith check files { options with validate := true } = .ok c ↔
      p.assembleWith check files { options with validate := false } = .ok c ∧
        ∀ x ∈ p.agenda, c.Passes (p.setting check files options) x := by
  have hrun (a : Assembly) : p.checkedRun check files options true = .ok a ↔
      p.checkedRun check files options false = .ok a ∧
      ∀ x ∈ p.agenda, a.Passes (p.setting check files options) x :=
    (p.ready_agenda p.schedule.events).run_eq_ok_iff
  rw [assembleWith_eq_ok_iff_checkedRun, assembleWith_eq_ok_iff_checkedRun]
  constructor
  · rintro ⟨a, hon, rfl⟩
    obtain ⟨hoff, hpasses⟩ := (hrun a).mp hon
    exact ⟨⟨a, hoff, rfl⟩, fun x hx => (passes_completed _ _ a x).mpr (hpasses x hx)⟩
  · rintro ⟨⟨a, hoff, rfl⟩, hpasses⟩
    exact ⟨a, (hrun a).mpr ⟨hoff, fun x hx => (passes_completed _ _ a x).mp (hpasses x hx)⟩, rfl⟩

/-- **The check is a filter.** Let one program be assembled with the check of code and without.

With the check the assembly succeeds exactly if it does without and the flattened code of every
declaration that has a handle is accepted; the result is the same.

If the check refuses the code of a declaration, this is the first one that it refuses, in the order
in which declarations are taken in. Without the check, all declarations before it are taken in, and
then it has the code that is refused; the texts of those before it can be read and expanded, and
their code is accepted. If the assembly without the check succeeds, then this is the code that the
result has.

If the assembly with the check fails for another reason, it fails without in the same way. -/
theorem validation_filters (check : Wgsl.Check) (files : Files) (options : Options) (p : Program) :
    (∀ c, p.assembleWith check files { options with validate := true } = .ok c ↔
      p.assembleWith check files { options with validate := false } = .ok c ∧
        ∀ x ∈ p.agenda, c.Passes (p.setting check files options) x) ∧
    (∀ kind name text diagnostic log, p.assembleWith check files { options with validate := true } =
        .error ⟨.invalidCode kind name text diagnostic, log⟩ →
      ∃ before x after a code, p.agenda = before ++ x :: after ∧ x.key = (kind, name) ∧
        before.foldlM (take (p.setting check files { options with validate := false }))
          (Assembly.empty.note p.schedule.events) = .ok a ∧
        a.pendingCode? (p.setting check files options) x = some code ∧
        Utf8.decodeLossy code = text ∧
        check text = some diagnostic ∧
        (∀ y ∈ before, a.Passes (p.setting check files options) y ∧
          ∀ raw, y.text? = some raw → (p.setting check files options).failure? raw = none) ∧
        ∀ c, p.assembleWith check files { options with validate := false } = .ok c →
          c.resolvedCode? (p.setting check files options) x = some code ∧
            ∀ y ∈ before, c.Passes (p.setting check files options) y) ∧
    ∀ f, p.assembleWith check files { options with validate := true } = .error f →
      p.assembleWith check files { options with validate := false } = .error f ∨
      f.error.IsRefusal := by
  have hready := p.ready_agenda p.schedule.events
  refine ⟨fun c => assembleWith_checked_eq_ok, ?_, ?_⟩
  · intro kind name text diagnostic log hon
    rw [assembleWith_eq_error_iff_checkedRun] at hon
    obtain ⟨before, x, after, a, hagenda, hbefore, hrefused, hpasses⟩ :=
      hready.exists_first_refused hon ⟨kind, name, text, diagnostic, rfl⟩
    obtain ⟨code, hcode, hrefusal⟩ := Option.bind_eq_some_iff.mp hrefused
    obtain ⟨diagnostic', hcheck, herror⟩ := Setting.refusal?_eq_some_iff.mp hrefusal
    obtain ⟨rfl, rfl, rfl, rfl⟩ := AssemblyError.invalidCode.inj herror
    refine ⟨before, x, after, a, code, hagenda, rfl, hbefore, hcode, rfl, hcheck, hpasses, ?_⟩
    intro c hoff
    obtain ⟨b, hrun, rfl⟩ := assembleWith_eq_ok_iff_checkedRun.mp hoff
    rw [checkedRun, hagenda, foldlM_append_eq_ok] at hrun
    rw [hagenda] at hready
    obtain ⟨a', hbefore', hrest⟩ := hrun
    obtain rfl : a = a' := Except.ok.inj (hbefore.symm.trans hbefore')
    constructor
    · obtain ⟨a'', htake, hafter⟩ := foldlM_cons_eq_ok.mp hrest
      have htaken := (hready.run hbefore).taken_run htake hafter
      exact (resolvedCode?_completed _ _ b x).trans (htaken.resolved.trans hcode)
    · intro y hy
      exact (passes_completed _ _ b y).mpr (hready.passes_run hbefore hrest hy (hpasses y hy).1)
  · intro f hon
    rw [assembleWith_eq_error_iff_checkedRun] at hon ⊢
    exact hready.run_error hon

/-- A check that refuses one text. -/
def refuseHash : Wgsl.Check := fun text => if text = "m\nh" then some ⟨2, "refused"⟩ else none

/-- The sample passes if nothing is refused, and fails at its second fragment if the code of that
is. -/
theorem sample_validation :
    (∃ c, sample.assembleWith noCheck noFiles { Options.default with validate := true } = .ok c ∧
      sample.assembleWith noCheck noFiles { Options.default with validate := false } = .ok c) ∧
    (∃ log, sample.assembleWith refuseHash noFiles { Options.default with validate := true } =
      .error ⟨.invalidCode .fragment "hash" "m\nh" ⟨2, "refused"⟩, log⟩) ∧
    ∃ before x after a, sample.agenda = before ++ x :: after ∧ x.key = (.fragment, "hash") ∧
      before.foldlM
        (take (sample.setting refuseHash noFiles { Options.default with validate := false }))
        (Assembly.empty.note sample.schedule.events) = .ok a ∧
      ∀ y ∈ before, a.Passes (sample.setting refuseHash noFiles .default) y := by
  have hok :
      (sample.assembleWith noCheck noFiles { Options.default with validate := true }).isOk := by
    decide +kernel
  have hfails :
      ((sample.assembleWith refuseHash noFiles { Options.default with validate := true }).mapError
      Failure.error).map (fun _ => ()) =
        .error (.invalidCode .fragment "hash" "m\nh" ⟨2, "refused"⟩) := by
    decide +kernel
  have hlog :
      ∃ log, sample.assembleWith refuseHash noFiles { Options.default with validate := true } =
      .error ⟨.invalidCode .fragment "hash" "m\nh" ⟨2, "refused"⟩, log⟩ := by
    cases h : sample.assembleWith refuseHash noFiles { Options.default with validate := true } with
    | error f =>
        rw [h] at hfails
        obtain ⟨e, log⟩ := f
        cases hfails
        exact ⟨log, rfl⟩
    | ok c =>
        rw [h] at hfails
        cases hfails
  refine ⟨?_, hlog, ?_⟩
  · cases h : sample.assembleWith noCheck noFiles { Options.default with validate := true } with
    | error f =>
        rw [h] at hok
        cases hok
    | ok c => exact ⟨c, rfl, (((validation_filters noCheck noFiles .default sample).1 c).mp h).1⟩
  · obtain ⟨log, hlog⟩ := hlog
    obtain ⟨before, x, after, a, code, hagenda, hkey, hrun, -, -, -, hpasses, -⟩ :=
      (validation_filters refuseHash noFiles .default sample).2.1 _ _ _ _ log hlog
    exact ⟨before, x, after, a, hagenda, hkey, hrun, fun y hy => (hpasses y hy).1⟩

end Program

end ShaderPack
