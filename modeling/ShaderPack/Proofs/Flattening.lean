import ShaderPack.Proofs.DepthFirst
import ShaderPack.Proofs.Handles
import ShaderPack.Proofs.ResolvedCode
import ShaderPack.Proofs.Verdicts

/-!
# Flattening is complete and without repetition

The code of a shader is the code of everything it reaches, each module once and behind everything
that it depends on itself, and then its own code. This holds as long as the walk over the
dependencies is not cut off, which its cost tells beforehand (`ModuleTable.walkCost`).

* `ModuleTable.IsFlattened`: the statement about one text.
* `isFlattened_flatten`: flattening gives such a text, if the walk is allowed the steps it needs.
* `Run.inline_record`: where the code of a shader module with code of its own is found in the end.
* `Program.flattening_complete`: the statement about the shaders of a finished assembly.
-/

namespace ShaderPack

namespace ModuleTable

variable {t : ModuleTable} {store : BlobStore} {deps : List UInt32} {own : Bytes}

/-- `code` has the code of the modules that are `reached`, each once, with a line break behind it
and behind the code of everything the module depends on; then comes `own`. -/
def IsFlattened (t : ModuleTable) (store : BlobStore) (reached : UInt32 → Prop) (own code : Bytes) :
    Prop :=
  ∃ (order : List UInt32) (codes : List Bytes), order.Nodup ∧ (∀ id, id ∈ order ↔ reached id) ∧
    (∀ before id after, order = before ++ id :: after → ∀ d, t.DependsOn id d → d ∈ before) ∧
    List.Forall₂ (fun id code => ∃ m, t.get? id = some m ∧ store.blob? m.blob = some code)
      order codes ∧
    code = codes.flatMap (· ++ [lineBreak]) ++ own

/-- What a list of modules adds to a text is the code of each with a line break. -/
theorem Stored.exists_codes (h : t.Stored store) {ids : List UInt32}
    (hids : ∀ id ∈ ids, id.toNat < t.count) :
    ∃ codes, List.Forall₂ (fun id code => ∃ m, t.get? id = some m ∧ store.blob? m.blob = some code)
        ids codes ∧
      ids.flatMap (t.contribution store) = codes.flatMap (· ++ [lineBreak]) := by
  induction ids with
  | nil => exact ⟨[], .nil, rfl⟩
  | cons id ids ih =>
      obtain ⟨codes, hcodes, hflat⟩ := ih fun x hx => hids x (List.mem_cons_of_mem _ hx)
      obtain ⟨m, hm⟩ := exists_get?_of_lt (hids id List.mem_cons_self)
      obtain ⟨code, hne, hcode⟩ := h id m hm
      refine ⟨code :: codes, .cons ⟨m, hm, hcode⟩ hcodes, ?_⟩
      rw [List.flatMap_cons, List.flatMap_cons, contribution_eq hm hcode hne, hflat]

/-- Flattening puts everything that is reached in front, if the walk is not cut off. -/
theorem isFlattened_flatten (ht : t.WellFormed) (hstored : t.Stored store)
    (hdeps : ∀ d ∈ deps, d.toNat < t.count) (hcost : t.walkCost deps ≤ stepLimit) (own : Bytes) :
    t.IsFlattened store (t.ReachedFrom deps) own (t.flatten store deps own) := by
  obtain ⟨hnodup, hmem, hfirst⟩ := closure_of_walkCost_le ht hdeps hcost
  have hregistered : ∀ id ∈ (t.closure deps).order, id.toNat < t.count := fun id hid =>
    lt_count_of_reachedFrom ht hdeps ((hmem id).mp hid)
  obtain ⟨codes, hcodes, hflat⟩ := hstored.exists_codes hregistered
  refine ⟨_, codes, hnodup, hmem, ?_, hcodes, ?_⟩
  · intro before id after horder d hd
    have hsuffix : id :: before.reverse <:+ (t.closure deps).order.reverse :=
      ⟨after.reverse, by rw [horder]; simp⟩
    exact List.mem_reverse.mp (hfirst id before.reverse hsuffix d hd)
  · rw [flatten, hflat]

/-- What is reached from the dependencies of a module is what the module reaches by at least one
step. -/
theorem reachedFrom_deps_iff {id x : UInt32} {m : Module} (hm : t.get? id = some m) :
    t.ReachedFrom m.deps x ↔ Relation.TransGen t.DependsOn id x := by
  rw [Relation.TransGen.head'_iff]
  constructor
  · rintro ⟨r, hr, hrx⟩
    exact ⟨r, ⟨m, hm, hr⟩, hrx⟩
  · rintro ⟨r, ⟨m', hm', hr⟩, hrx⟩
    obtain rfl : m = m' := Option.some.inj (hm.symm.trans hm')
    exact ⟨r, hr, hrx⟩

/-- No module reaches itself. -/
theorem not_transGen_self (ht : t.WellFormed) (id : UInt32) :
    ¬ Relation.TransGen t.DependsOn id id := by
  intro h
  obtain ⟨r, hr, hrid⟩ := Relation.TransGen.head'_iff.mp h
  exact Nat.lt_irrefl _ (Nat.lt_of_le_of_lt (le_of_reflTransGen ht hrid) (hr.lt ht))

end ModuleTable

namespace Assembly

variable {s : Setting} {a b : Assembly} {name : String} {d : Declaration}
  {done : List (Kind × String)}

/-- The code that a shader is created from: what is stored for it, or the flattened code of its
module. -/
def shaderCode? (a : Assembly) : CodeSource → Option Bytes
  | .blob blob => a.container.blobs.blob? blob
  | .module id => a.resolved? id

/-- Taking in a shader module with code of its own gives it the next handle, and an instruction
whose code is flattened from its imports. -/
theorem ShaderModuleStep.inline (h : ShaderModuleStep s a name d b) (ha : a.Sound done)
    (hkey : (Kind.shaderModule, name) ∉ done) (hlen : done.length < 2 ^ 31) {p : Property}
    {own : Expansion} (hp : Declaration.codeProperty? d = some p) (href : p.reference? = none)
    (hown : s.expand (p.text?.getD "") = .ok own) (hne : own.text ≠ []) :
    ∃ source, b.handles.handles.entries =
        a.handles.handles.entries ++ [((.shaderModule, name), a.handles.next)] ∧
      b.container.instructions.toList =
        a.container.instructions.toList ++ [.create a.handles.next source] ∧
      b.shaderCode? source = some (a.table.flatten a.container.blobs
        (a.table.importIds (Declaration.imports d)) own.text) := by
  have hentries := Dict.entries_insert_of_not_mem a.handles.handles a.handles.next
    fun hmem => hkey (ha.handles hmem)
  have hbound : a.container.blobs.count < 2 ^ 32 := by
    have := ha.blobs
    omega
  cases hmode : s.options.mode with
  | legacy =>
      obtain ⟨own', hown', hcases⟩ := h.of_inline_legacy hmode hp href
      obtain rfl : own' = own := Except.ok.inj (hown'.symm.trans hown)
      rcases hcases with ⟨hempty, -⟩ | ⟨-, source, blobs, log, hsource, rfl⟩
      · exact absurd hempty hne
      · cases hsource with
        | blob _ hadded =>
            exact ⟨_, hentries, Array.toList_push, BlobStore.blob?_of_add? hadded hbound⟩
  | runtime =>
      obtain ⟨own', hown', hcases⟩ := h.of_inline_runtime hmode hp href
      obtain rfl : own' = own := Except.ok.inj (hown'.symm.trans hown)
      rcases hcases with ⟨hempty, -⟩ | ⟨-, m, code, source, blobs, blobs', log, hm, hsource, rfl⟩
      · exact absurd hempty hne
      · cases hsource with
        | module _ =>
            refine ⟨_, hentries, Array.toList_push, ?_⟩
            refine (ha.resolved?_enter hlen hne hm rfl (.refl _)).trans ?_
            rw [hm.deps_eq, ha.flatten_enter hm fun i hi => ModuleTable.importIds_lt ha.table hi]
        | blob hblob _ => simp [hmode] at hblob

/-- The code of a shader stays as it is while tables grow. -/
theorem shaderCode?_of_extends (ha : a.Sound done) (h : a.Extends b) {source : CodeSource}
    {code : Bytes} (hcode : a.shaderCode? source = some code) :
    b.shaderCode? source = some code := by
  cases source with
  | blob blob => exact h.blobs _ _ hcode
  | module id =>
      obtain ⟨m, hm, -⟩ := Option.bind_eq_some_iff.mp hcode
      exact (resolved?_of_extends ha.table ha.stored h.table h.blobs hm).trans hcode

/-- An instruction stands at the place that its handle tells. -/
theorem Dense.handle_eq (h : a.Dense) {i : Nat} {handle : UInt32} {source : CodeSource}
    (hi : a.container.instructions.toList[i]? = some (.create handle source)) :
    handle.toNat = i := by
  obtain ⟨sources, hlength, hsources⟩ := h.instructions
  rw [hsources, Instruction.creates, List.getElem?_mapIdx] at hi
  obtain ⟨source', hsource', heq⟩ := Option.map_eq_some_iff.mp hi
  have hlt : i < sources.length := (List.getElem?_eq_some_iff.mp hsource').1
  rw [hlength] at hlt
  have hbound := a.handles.next.toNat_lt
  rw [← (Instruction.create.inj heq).1]
  exact UInt32.toNat_ofNat_of_lt' (by rw [UInt32.size]; omega)

/-- The handle and the instruction that a step added last are found in a finished assembly: the
handle under its declaration, and the instruction at the place that the handle tells. -/
theorem Dense.placed {a' : Assembly} (h : b.Dense) (hgrow : a'.Extends b) {key : Kind × String}
    {handle : UInt32} {source : CodeSource} {es : List ((Kind × String) × UInt32)}
    {xs : List Instruction} (hentries : a'.handles.handles.entries = es ++ [(key, handle)])
    (hinstructions : a'.container.instructions.toList = xs ++ [.create handle source]) :
    b.handles.handle? key.1 key.2 = some handle ∧
      b.container.instructions.toList[handle.toNat]? = some (.create handle source) := by
  constructor
  · refine (Dict.find?_eq_some_iff _ _ _).mpr (hgrow.handles.subset ?_)
    rw [hentries]
    exact List.mem_append_right _ (List.mem_singleton.mpr rfl)
  · obtain ⟨rest, hrest⟩ := hgrow.instructions
    have hplace : b.container.instructions.toList[xs.length]? = some (.create handle source) := by
      rw [← hrest, hinstructions]
      simp
    rw [h.handle_eq hplace]
    exact hplace

end Assembly

/-! ### Finished assemblies -/

namespace Program

open Assembly

variable {p : Program} {s : Setting} {a b c : Assembly}

/-- Where the code of a shader module with code of its own is found in the end: its handle tells the
place of an instruction, and the code of that instruction is flattened from the imports. -/
theorem Run.inline_record (r : p.Run s a b c) (hlen : p.declarationCount < 2 ^ 31) {name : String}
    {d : Declaration} {prop : Property} {own : Expansion} (hd : p.shaderModules.find? name = some d)
    (hp : Declaration.codeProperty? d = some prop) (href : prop.reference? = none)
    (hown : s.expand (prop.text?.getD "") = .ok own) (hne : own.text ≠ []) :
    ∃ handle source, b.handles.handle? .shaderModule name = some handle ∧
      b.container.instructions.toList[handle.toNat]? = some (.create handle source) ∧
      b.shaderCode? source = some (b.table.flatten b.container.blobs
        (b.table.importIds (Declaration.imports d)) own.text) := by
  obtain ⟨before, after, hsplit⟩ := List.append_of_mem ((Dict.find?_eq_some_iff _ _ _).mp hd)
  obtain ⟨hkey, hlen₁⟩ := fresh_shaderModule hlen hsplit
  obtain ⟨b₁, b₂, hsound₁, hsound₂, hstep, hgrow, -, hlookup, -⟩ := r.split_shaderModule hlen hsplit
  have hextends := (hstep.change.extends hsound₁ hkey).trans hgrow
  -- shader modules leave the modules of fragments alone, so the imports mean the same in the end
  have himports : b.table.importIds (Declaration.imports d) =
      b₁.table.importIds (Declaration.imports d) := by
    unfold ModuleTable.importIds
    rw [funext hlookup]
  obtain ⟨source, hentries, hinstructions, hcode⟩ :=
    hstep.inline hsound₁ hkey hlen₁ hp href hown hne
  obtain ⟨hhandle, hplace⟩ := (r.dense hlen).1.placed hgrow hentries hinstructions
  refine ⟨b₁.handles.next, source, hhandle, hplace, ?_⟩
  rw [himports, ModuleTable.flatten_of_extends hsound₁.table hsound₁.stored hextends.table
    hextends.blobs fun i hi => ModuleTable.importIds_lt hsound₁.table hi]
  exact shaderCode?_of_extends hsound₂ hgrow hcode

/-- A fragment that is a module is declared, and its module has the code that the declaration stands
for. -/
theorem Run.stored_fragment (r : p.Run s a b c) (hlen : p.declarationCount < 2 ^ 31) {name : String}
    {id : UInt32} {m : Module} (hid : b.table.fragmentId? name = some id)
    (hm : b.table.get? id = some m) :
    ∃ d own, p.fragments.find? name = some d ∧ s.expand (Declaration.fragmentCode d) = .ok own ∧
      b.container.blobs.blob? m.blob = some own.text := by
  obtain ⟨d, own, -, -, hd, -, hown, -, hblob, -⟩ := r.stored_record hlen hid hm
  exact ⟨d, own, hd, hown, hblob⟩

variable {check : Wgsl.Check} {files : Files} {options : Options}

/-- **Flattening is complete and without repetition.** Let the walk over the dependencies of a
shader take at most 2048 steps: one for each dependency, and for each module that is reached one and
one for each of its dependencies.

If the shader is that of a fragment, the code kept for it has the code of every module that the
fragment reaches by dependencies, each once and behind what it depends on, with a line break behind
it; then comes the fragment's own code, and nothing else. The fragment does not reach itself.

The same holds for a shader module with code of its own, of the code that its instruction creates it
from, and of what is reached from its imports. -/
theorem flattening_complete (hlen : p.declarationCount < 2 ^ 31)
    (h : p.assembleWith check files options = .ok c) :
    (∀ name id m, c.table.fragmentId? name = some id → c.table.get? id = some m →
      c.table.walkCost m.deps ≤ 2048 →
      ¬ Relation.TransGen c.table.DependsOn id id ∧
      ∃ d own code, p.fragments.find? name = some d ∧
        (p.setting check files options).expand (Declaration.fragmentCode d) = .ok own ∧
        c.cache.find? name = some code ∧
        c.table.IsFlattened c.container.blobs
          (Relation.TransGen c.table.DependsOn id) own.text code) ∧
    ∀ name d prop own, p.shaderModules.find? name = some d →
      Declaration.codeProperty? d = some prop → prop.reference? = none →
      (p.setting check files options).expand (prop.text?.getD "") = .ok own → own.text ≠ [] →
      c.table.walkCost (c.table.importIds (Declaration.imports d)) ≤ 2048 →
      ∃ handle source code, c.handles.handle? .shaderModule name = some handle ∧
        c.container.instructions.toList[handle.toNat]? = some (.create handle source) ∧
        c.shaderCode? source = some code ∧
        c.table.IsFlattened c.container.blobs
          (c.table.ReachedFrom (c.table.importIds (Declaration.imports d))) own.text code := by
  obtain ⟨a, b, r⟩ := exists_run h
  obtain ⟨hsound, -⟩ := r.sound_shaderModules hlen
  have hcache := (r.cacheSound hlen).2
  obtain ⟨log, rfl⟩ := r.finished
  simp only [finish_table, finish_cache, finish_handles, finish_blobs, finish_instructions]
  refine ⟨?_, ?_⟩
  · intro name id m hid hm hcost
    obtain ⟨d, own, hd, hown, hblob⟩ := r.stored_fragment hlen hid hm
    have hdeps : ∀ i ∈ m.deps, i.toNat < b.table.count := fun i hi =>
      Nat.lt_trans (hsound.table.dep_lt hm hi) (ModuleTable.lt_count_of_get? hm)
    have hflat := ModuleTable.isFlattened_flatten hsound.table hsound.stored hdeps hcost own.text
    have hreached : b.table.ReachedFrom m.deps = Relation.TransGen b.table.DependsOn id := by
      funext x
      exact propext (ModuleTable.reachedFrom_deps_iff hm)
    rw [hreached] at hflat
    refine ⟨ModuleTable.not_transGen_self hsound.table id, d, own, _, hd, hown, ?_, hflat⟩
    rw [hcache name, resolvedFragment?, hid, Option.bind_some, resolved?_eq hm hblob]
  · intro name d prop own hd hp href hown hne hcost
    obtain ⟨handle, source, hhandle, hplace, hcode⟩ := r.inline_record hlen hd hp href hown hne
    refine ⟨handle, source, _, hhandle, ?_, ?_,
      ModuleTable.isFlattened_flatten hsound.table hsound.stored
      (fun i hi => ModuleTable.importIds_lt hsound.table hi) hcost own.text⟩
    · rw [List.getElem?_append_left (List.getElem?_eq_some_iff.mp hplace).1]
      exact hplace
    · refine Eq.trans ?_ hcode
      cases source with
      | blob blob => simp [shaderCode?]
      | module id => simp [shaderCode?, resolved?]

/-- A fragment on a cycle has the code of the other one and of everything behind it in front of
its own. A shader module is flattened from its imports in the same way. -/
theorem sample_flattening :
    sample.declarationCount < 2 ^ 31 ∧
    ∃ c, sample.assembleWith noCheck noFiles .default = .ok c ∧
      c.cache.find? "right" = some (Utf8.encode "l\nm\nh\nr") ∧
      (∃ own, c.table.IsFlattened c.container.blobs (Relation.TransGen c.table.DependsOn 4) own
        (Utf8.encode "l\nm\nh\nr")) ∧
      ∃ handle source code, c.handles.handle? .shaderModule "post" = some handle ∧
        c.container.instructions.toList[handle.toNat]? = some (.create handle source) ∧
        c.shaderCode? source = some code ∧
        c.table.IsFlattened c.container.blobs (c.table.ReachedFrom [1, 4])
          (Utf8.encode "p") code := by
  have hlen : sample.declarationCount < 2 ^ 31 := by decide
  have hright : (sample.assembleWith noCheck noFiles .default).toOption.map
      (fun c =>
        (c.table.fragmentId? "right", (c.table.get? 4).map Module.deps, c.cache.find? "right")) =
      some (some 4, some [3, 1], some (Utf8.encode "l\nm\nh\nr")) := by decide +kernel
  have htable : (sample.assembleWith noCheck noFiles .default).toOption.map
      (fun c => (c.table.importIds ["hash", "right"],
        (c.table.modules.toList.map fun m => 1 + m.deps.length).sum)) = some ([1, 4], 10) := by
    decide +kernel
  have hown : (sample.setting noCheck noFiles .default).expand "p" =
      .ok ⟨Utf8.encode "p", true⟩ := by
    decide +kernel
  cases h : sample.assembleWith noCheck noFiles .default with
  | error e =>
      rw [h] at hright
      cases hright
  | ok c =>
      rw [h] at hright htable
      simp only [Except.toOption, Option.map_some, Option.some.injEq,
        Prod.mk.injEq] at hright htable
      obtain ⟨hid, hm, hcache⟩ := hright
      obtain ⟨himports, hsum⟩ := htable
      obtain ⟨m, hm, hdeps⟩ := Option.map_eq_some_iff.mp hm
      have hcost : ∀ roots : List UInt32, roots.length = 2 → c.table.walkCost roots ≤ 2048 := by
        intro roots hroots
        have := c.table.walkCost_le roots
        omega
      obtain ⟨hfragments, hinline⟩ := flattening_complete hlen h
      obtain ⟨-, d, own, code, -, -, hcode, hflat⟩ :=
        hfragments "right" 4 m hid hm (hcost _ (by rw [hdeps]; rfl))
      obtain rfl : code = Utf8.encode "l\nm\nh\nr" := Option.some.inj (hcode.symm.trans hcache)
      obtain ⟨d', hd', hp, himported⟩ : ∃ d, sample.shaderModules.find? "post" = some d ∧
          Declaration.codeProperty? d = some (.text "p") ∧
          Declaration.imports d = ["hash", "right"] :=
        ⟨_, rfl, rfl, rfl⟩
      have hpost := hinline "post" d' (.text "p") _ hd' hp rfl hown (by decide)
      rw [himported, himports] at hpost
      obtain ⟨handle, source, code, hhandle, hplace, hcode', hflat'⟩ := hpost (hcost _ rfl)
      exact ⟨hlen, c, rfl, hcache, ⟨own.text, hflat⟩, handle, source, code, hhandle, hplace, hcode',
        hflat'⟩

end Program

end ShaderPack
