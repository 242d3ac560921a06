import ShaderPack.Proofs.Cuts
import ShaderPack.Proofs.Links
import ShaderPack.Proofs.Verdicts

/-!
# Nothing goes wrong inside

An assembly can fail because of the program, the files or the room there is. It does not fail
because of itself (`Program.assembly_safe`): no module is registered twice, or before what it
depends on; every blob has a place, inside the pool; the tables stay in step; and expansion cuts
texts only between characters.

* `Assembly.error_run`: the failure of a run is the failure of one of its steps, in a state that is
  sound.
* `addFragment_ne_defect`, `addShaderModule_ne_defect`: in such a state a step does not fail with a
  defect.
-/

namespace ShaderPack

namespace Assembly

variable {s : Setting} {a : Assembly} {done : List (Kind × String)} {name : String}
  {d : Declaration} {f : Failure}

/-- A fragment never fails for a reason that should not occur. -/
theorem addFragment_ne_defect (ha : a.Sound done) (hkey : (Kind.fragment, name) ∉ done)
    (hlen : done.length < 2 ^ 31) (h : a.addFragment s name d = .error f) (x : Defect) :
    f.error ≠ .defect x := by
  rcases addFragment_error ha hkey hlen h with hfull | hverdict
  · rw [hfull]
    exact fun h => by cases h
  · exact codeVerdict_ne_defect hverdict x

/-- Neither does a shader module. -/
theorem addShaderModule_ne_defect (ha : a.Sound done) (hkey : (Kind.shaderModule, name) ∉ done)
    (hlen : done.length < 2 ^ 31) (h : a.addShaderModule s name d = .error f) (x : Defect) :
    f.error ≠ .defect x := by
  rcases addShaderModule_error ha hkey hlen h with hfull | hverdict
  · rw [hfull]
    exact fun h => by cases h
  · exact shaderModuleVerdict_ne_defect hverdict x

/-- What holds of the failures of steps in sound states holds of the failures of runs. -/
theorem error_run {α : Type} {step : Assembly → α → Except Failure Assembly}
    {keyOf : α → Kind × String} {xs : List α} {P : Failure → Prop}
    (hchange : ∀ a x b, step a x = .ok b → Change s a (keyOf x) b)
    (hstep : ∀ done a x f, keyOf x ∉ done → done.length < 2 ^ 31 → a.Sound done →
      step a x = .error f → P f)
    (hnodup : (done ++ xs.map keyOf).Nodup) (hlen : (done ++ xs.map keyOf).length < 2 ^ 31)
    (ha : a.Sound done) (h : xs.foldlM step a = .error f) : P f := by
  induction xs generalizing a done with
  | nil => cases h
  | cons x xs ih =>
      obtain ⟨hfresh, hshort⟩ := fresh_of_nodup hnodup hlen
      -- the step that fails is made in a state that sound steps lead to
      rcases foldlM_cons_eq_error.mp h with hx | ⟨b, hx, h⟩
      · exact hstep done a x f hfresh hshort ha hx
      · rw [append_map_cons] at hnodup hlen
        exact ih hnodup hlen ((hchange a x b hx).sound ha hshort) h

end Assembly

namespace Program

open Assembly

variable {p : Program} {check : Wgsl.Check} {files : Files} {options : Options}

/-- An assembly does not fail with a defect. -/
theorem assembleWith_ne_defect (hlen : p.declarationCount < 2 ^ 31) {f : Failure}
    (h : p.assembleWith check files options = .error f) (x : Defect) : f.error ≠ .defect x := by
  obtain ⟨hnodup, hlen'⟩ := Run.fragment_keys hlen
  unfold assembleWith at h
  simp only [bind, Except.bind] at h
  split at h
  · next f' hf =>
    cases h
    refine error_run (P := fun f => f.error ≠ .defect x) Run.fragment_change ?_ hnodup hlen'
      (sound_empty _) hf
    intro done a e f hkey hshort ha hstep
    exact addFragment_ne_defect ha hkey hshort hstep x
  · next a ha =>
    split at h
    · next f' hf =>
      cases h
      have hnodup' := p.nodup_declarations
      have hlen'' := length_declarations p ▸ hlen
      have hsound : a.Sound (p.scheduledFragments.map fragmentKey) :=
        (sound_run Run.fragment_change hnodup hlen' (sound_empty _) ha).1
      refine error_run (P := fun f => f.error ≠ .defect x) Run.shaderModule_change ?_ hnodup' hlen''
        hsound hf
      intro done a e f hkey hshort ha hstep
      exact addShaderModule_ne_defect ha hkey hshort hstep x
    · cases h

/-- **Nothing goes wrong inside.** Assembling a program does not fail with a defect: modules are
registered once and behind what they depend on, a blob that was stored has a place, and the two
tables of modules give the same ids.

In a finished assembly every span lies in the pool, so the blobs can be written.

Every text that can be loaded is expanded by cuts that are in order, inside the text and between
characters, and what they give is its expansion. -/
theorem assembly_safe (hlen : p.declarationCount < 2 ^ 31) :
    (∀ f, p.assembleWith check files options = .error f → ∀ x, f.error ≠ .defect x) ∧
    (∀ c, p.assembleWith check files options = .ok c →
      ∀ span ∈ c.container.blobs.spans,
        span.offset.toNat + span.length.toNat ≤ c.container.blobs.byteCount) ∧
    ∀ raw source, Source.load files options.baseDir raw = .ok source →
      (p.setting check files options).defines.expandByCuts source =
        .ok ((p.setting check files options).defines.expand source) := by
  refine ⟨?_, ?_, ?_⟩
  · intro f h x
    exact assembleWith_ne_defect hlen h x
  · intro c h
    obtain ⟨a, b, r⟩ := exists_run h
    have hspans := (r.linked hlen).spans
    obtain ⟨log, rfl⟩ := r.finished
    rw [finish_blobs]
    exact hspans
  · intro raw source hload
    exact Defines.expandByCuts_eq _ (fun name value hvalue => Defines.isText_of_value? hvalue)
      (Source.isText_of_load hload)

/-- A program with a define and with code that has characters of several bytes next to its uses. -/
def accented : Program :=
  { sample with defines := .ofList [("GAIN", .str "½·E")] }

/-- With characters of several bytes in the text and in the defines, all cuts are accepted and all
blobs lie in the pool. -/
theorem accented_safe : accented.declarationCount < 2 ^ 31 ∧
    (∃ c, accented.assembleWith noCheck noFiles .default = .ok c ∧
      ∀ span ∈ c.container.blobs.spans,
        span.offset.toNat + span.length.toNat ≤ c.container.blobs.byteCount) ∧
    (accented.setting noCheck noFiles .default).defines.expandByCuts (Utf8.encode "ü=GAIN¹;") =
      .ok (some ⟨Utf8.encode "ü=½·2.718281828459045¹;", true⟩) := by
  have hlen : accented.declarationCount < 2 ^ 31 := by decide
  obtain ⟨-, hspans, hcuts⟩ := @assembly_safe accented noCheck noFiles .default hlen
  have hok : (accented.assembleWith noCheck noFiles .default).isOk := by decide +kernel
  have hexpand :
      (accented.setting noCheck noFiles .default).defines.expand (Utf8.encode "ü=GAIN¹;") =
      some ⟨Utf8.encode "ü=½·2.718281828459045¹;", true⟩ := by decide +kernel
  refine ⟨hlen, ?_, ?_⟩
  · cases h : accented.assembleWith noCheck noFiles .default with
    | error f =>
        rw [h] at hok
        cases hok
    | ok c => exact ⟨c, rfl, hspans c h⟩
  · rw [hcuts "ü=GAIN¹;" _ rfl, hexpand]

end Program

end ShaderPack
