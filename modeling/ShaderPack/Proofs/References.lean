import ShaderPack.Proofs.Flattening
import ShaderPack.Proofs.Links
import ShaderPack.Proofs.Outcome

/-!
# What the references of a container lead to

The tables of a finished assembly refer to each other by numbers: modules to strings, blobs and
modules, instructions to blobs and modules, handles to instructions. `Program.references_sound` says
that every one of these numbers leads to the right thing.

That they lead somewhere is `Run.linked`. What is left is the code of a shader: the instruction at
the place that its handle tells creates it from the code that its declaration stands for.

* `Program.DeclaredCode`: the code that a declaration stands for, as the finished tables have it.
* `Run.fragment_shader`, `Run.reference_shader`: the code of a fragment's shader and of a shader
  module that uses a fragment; `Run.inline_record` is the case of a shader module with code of its
  own.
* `Run.declaredCode`: all declarations that have a handle.
-/

namespace ShaderPack

namespace Assembly

variable {s : Setting} {a b : Assembly} {name : String} {d : Declaration}
  {done : List (Kind × String)}

/-- Taking in a fragment with code gives it the next handle, and an instruction whose code is the
flattened code of its module. -/
theorem FragmentStep.shader (h : FragmentStep s a name d b) (ha : a.Sound done)
    (hkey : (Kind.fragment, name) ∉ done) (hlen : done.length < 2 ^ 31) {own : Expansion}
    (hown : s.expand (Declaration.fragmentCode d) = .ok own) (hne : own.text ≠ []) :
    ∃ source code,
      b.handles.handles.entries =
        a.handles.handles.entries ++ [((.fragment, name), a.handles.next)] ∧
      b.container.instructions.toList =
        a.container.instructions.toList ++ [.create a.handles.next source] ∧
      b.shaderCode? source = some code ∧ b.resolvedFragment? name = some code := by
  have hentries := Dict.entries_insert_of_not_mem a.handles.handles a.handles.next
    fun hmem => hkey (ha.handles hmem)
  cases h with
  | @empty own' hown' hempty log =>
      obtain rfl : own' = own := Except.ok.inj (hown'.symm.trans hown)
      exact absurd hempty hne
  | @stored own' m blobs blobs' code source hown' _ hm hcode _ hsource log =>
      obtain rfl : own' = own := Except.ok.inj (hown'.symm.trans hown)
      have hresolved :=
        ha.resolvedFragment?_enter (b := { ((a.enter m blobs).remember name code).issue
        (.fragment, name) source blobs' with log }) hlen hne hm rfl hsource.keeps
      rw [← hcode] at hresolved
      refine ⟨source, code, hentries, Array.toList_push, ?_, hresolved⟩
      cases hsource with
      | module _ =>
          rw [hcode]
          exact ha.resolved?_enter hlen hne hm rfl (.refl _)
      | blob _ hadded => exact BlobStore.blob?_of_add? hadded (ha.count_enter_lt hlen hm).2

/-- Taking in a shader module that uses a fragment with code gives it the next handle, and an
instruction with the fragment's code. -/
theorem ShaderModuleStep.shader {prop : Property} {target : String} {code : Bytes}
    (h : ShaderModuleStep s a name d b) (ha : a.Sound done)
    (hkey : (Kind.shaderModule, name) ∉ done) (hlen : done.length < 2 ^ 31) (hcache : a.CacheSound)
    (hp : Declaration.codeProperty? d = some prop) (href : prop.reference? = some target)
    (hcode : a.cache.find? target = some code) (hne : code ≠ []) :
    ∃ source,
      b.handles.handles.entries =
        a.handles.handles.entries ++ [((.shaderModule, name), a.handles.next)] ∧
      b.container.instructions.toList =
        a.container.instructions.toList ++ [.create a.handles.next source] ∧
      b.shaderCode? source = some code := by
  have hentries := Dict.entries_insert_of_not_mem a.handles.handles a.handles.next
    fun hmem => hkey (ha.handles hmem)
  have hbound : a.container.blobs.count < 2 ^ 32 := by
    have := ha.blobs
    omega
  obtain ⟨id, m, hid, -, hresolved⟩ := hcache.exists_module hcode
  rcases h.of_reference hp href with ⟨hnone, -⟩ | ⟨code', source, blobs, log, hcode', -, hsource,
    rfl⟩
  · rw [hcode] at hnone
    exact absurd hnone hne
  · obtain rfl : code' = code := Option.some.inj (hcode'.symm.trans hcode)
    rw [hid] at hsource
    refine ⟨source, hentries, Array.toList_push, ?_⟩
    cases hsource with
    | module _ => exact hresolved
    | blob _ hadded => exact BlobStore.blob?_of_add? hadded hbound

/-! ### The end of an assembly -/

/-- The flag of a finished container tells the mode. -/
theorem flags_finish (h : a.container.flags = 0) (mode : Mode) :
    (a.finish mode).container.flags &&& Container.runtimeFlag ≠ 0 ↔ mode = .runtime := by
  cases mode <;> simp [finish, Container.push, h, Container.runtimeFlag]

/-- The code of a shader depends on the modules and the blobs only. -/
theorem shaderCode?_congr (ht : b.table = a.table) (hs : b.container.blobs = a.container.blobs)
    (source : CodeSource) : b.shaderCode? source = a.shaderCode? source := by
  cases source with
  | blob id => rw [shaderCode?, shaderCode?, hs]
  | module id => rw [shaderCode?, shaderCode?, resolved?, resolved?, ht, hs]

/-- Where code comes from stays in place when an assembly is finished. -/
theorem linked_finish {source : CodeSource} {mode : Mode} (h : source.Linked a.container mode) :
    source.Linked (a.finish mode).container mode := by
  cases h with
  | blob hcode hne => exact .blob (by simpa using hcode) hne
  | module he => exact .module (by simpa using he)

end Assembly

/-! ### Programs -/

namespace Program

open Assembly

variable {p : Program}

/-- The code that a declaration stands for, as the tables of an assembly have it. -/
inductive DeclaredCode (p : Program) (s : Setting) (c : Assembly) : Kind → String → Bytes → Prop
  /-- A fragment stands for its own code behind the code of everything that its module reaches. This
  is also the code that is kept for it. -/
  | fragment {name : String} {d : Declaration} {own : Expansion} {id : UInt32} {m : Module}
      {code : Bytes} (hd : p.fragments.find? name = some d)
      (hown : s.expand (Declaration.fragmentCode d) = .ok own)
      (hid : c.table.fragmentId? name = some id) (hm : c.table.get? id = some m)
      (hcode : code = c.table.flatten c.container.blobs m.deps own.text)
      (hcache : c.cache.find? name = some code) : DeclaredCode p s c .fragment name code
  /-- A shader module that uses a fragment stands for the code of the fragment. -/
  | reference {name target : String} {d : Declaration} {code : Bytes}
      (hd : p.shaderModules.find? name = some d) (htarget : Declaration.target? d = some target)
      (hcode : DeclaredCode p s c .fragment target code) :
      DeclaredCode p s c .shaderModule name code
  /-- A shader module with code of its own stands for it behind the code of everything that it
  imports. -/
  | inline {name raw : String} {d : Declaration} {own : Expansion} {code : Bytes}
      (hd : p.shaderModules.find? name = some d) (hraw : Declaration.inlineCode? d = some raw)
      (hown : s.expand raw = .ok own)
      (hcode : code = c.table.flatten c.container.blobs (c.table.importIds (Declaration.imports d))
        own.text) : DeclaredCode p s c .shaderModule name code

namespace Run

variable {s : Setting} {a b c : Assembly}

/-- A fragment's module has the code that the fragment stands for. -/
theorem declaredCode_fragment (r : p.Run s a b c) (hlen : p.declarationCount < 2 ^ 31)
    {name : String} {code : Bytes} (hcode : b.resolvedFragment? name = some code) :
    p.DeclaredCode s b .fragment name code := by
  obtain ⟨id, hid, hresolved⟩ := Option.bind_eq_some_iff.mp hcode
  obtain ⟨m, hm, -⟩ := Option.bind_eq_some_iff.mp hresolved
  obtain ⟨d, own, hd, hown, hblob⟩ := r.stored_fragment hlen hid hm
  refine .fragment hd hown hid hm ?_ (((r.cacheSound hlen).2 name).trans hcode)
  rw [resolved?_eq hm hblob] at hresolved
  exact (Option.some.inj hresolved).symm

/-- The shader of a fragment has the flattened code of the fragment's module. -/
theorem fragment_shader (r : p.Run s a b c) (hlen : p.declarationCount < 2 ^ 31) {name : String}
    {id : UInt32} (hid : b.table.fragmentId? name = some id) :
    ∃ source code, b.container.instructions.toList[id.toNat]? = some (.create id source) ∧
      b.shaderCode? source = some code ∧ b.resolvedFragment? name = some code := by
  obtain ⟨m, hm, -⟩ := (ModuleTable.lookup_eq_some_iff (r.sound_shaderModules hlen).1.table).mp hid
  obtain ⟨d, own, before, after, -, hsplit, hown, hne, -⟩ := r.stored_record hlen hid hm
  obtain ⟨a₁, a₂, hsound, hstep, hgrow, hlookup⟩ := r.split hlen hsplit
  obtain ⟨hkey, hafter, hshort⟩ := fresh_fragment hlen hsplit
  obtain ⟨source, code, hentries, hinstructions, hcode, hresolved⟩ :=
    hstep.shader hsound hkey hshort hown hne
  obtain ⟨hdense, hhandles⟩ := r.dense hlen
  obtain ⟨hhandle, hplace⟩ := hdense.placed hgrow hentries hinstructions
  obtain rfl : id = a₁.handles.next := by
    have hid' := (hhandles name).symm.trans hhandle
    exact Option.some.inj (hid.symm.trans hid')
  have hsound₂ := hstep.change.sound hsound hshort
  refine ⟨source, code, hplace, shaderCode?_of_extends hsound₂ hgrow hcode, ?_⟩
  rw [resolvedFragment?_of_extends hsound₂ hgrow (hlookup name hafter)]
  exact hresolved

/-- The shader of a shader module that uses a fragment has the flattened code of the fragment's
module. -/
theorem reference_shader (r : p.Run s a b c) (hlen : p.declarationCount < 2 ^ 31)
    {name target : String} {d : Declaration} {code : Bytes}
    (hd : p.shaderModules.find? name = some d) (htarget : Declaration.target? d = some target)
    (hcode : b.resolvedFragment? target = some code) (hne : code ≠ []) :
    ∃ handle source, b.handles.handle? .shaderModule name = some handle ∧
      b.container.instructions.toList[handle.toNat]? = some (.create handle source) ∧
      b.shaderCode? source = some code := by
  obtain ⟨before, after, hsplit⟩ := List.append_of_mem ((Dict.find?_eq_some_iff _ _ _).mp hd)
  obtain ⟨hkey, hshort⟩ := fresh_shaderModule hlen hsplit
  obtain ⟨b₁, b₂, hsound₁, hsound₂, hstep, hgrow, hcache, hfragments, -⟩ :=
    r.split_shaderModule hlen hsplit
  have hextends := (hstep.change.extends hsound₁ hkey).trans hgrow
  have hcode₁ : b₁.cache.find? target = some code := by
    rw [hcache, ← resolvedFragment?_of_extends hsound₁ hextends (hfragments target)]
    exact hcode
  obtain ⟨prop, hp, href⟩ := Option.bind_eq_some_iff.mp htarget
  obtain ⟨source, hentries, hinstructions, hshader⟩ :=
    hstep.shader hsound₁ hkey hshort hcache hp href hcode₁ hne
  obtain ⟨hhandle, hplace⟩ := (r.dense hlen).1.placed hgrow hentries hinstructions
  exact ⟨b₁.handles.next, source, hhandle, hplace, shaderCode?_of_extends hsound₂ hgrow hshader⟩

/-- The flattened code of a module is not empty. -/
theorem resolved_ne_nil (r : p.Run s a b c) (hlen : p.declarationCount < 2 ^ 31) {name : String}
    {code : Bytes} (hcode : b.resolvedFragment? name = some code) : code ≠ [] := by
  obtain ⟨hsound, -⟩ := r.sound_shaderModules hlen
  obtain ⟨-, hcache⟩ := r.cacheSound hlen
  obtain ⟨id, hid, -⟩ := Option.bind_eq_some_iff.mp hcode
  have hne := (hcache.find?_iff hsound name).2.mpr (by rw [hid, Option.isSome_some])
  rwa [hcache name, hcode, Option.getD_some] at hne

/-- The instruction at the place that a handle tells creates the shader from the code that the
declaration with the handle stands for, and there is such code. -/
theorem declaredCode (r : p.Run s a b c) (hlen : p.declarationCount < 2 ^ 31) {kind : Kind}
    {name : String} {handle : UInt32} (hhandle : b.handles.handle? kind name = some handle) :
    ∃ source code, b.container.instructions.toList[handle.toNat]? = some (.create handle source) ∧
      b.shaderCode? source = some code ∧ code ≠ [] ∧ p.DeclaredCode s b kind name code := by
  cases kind with
  | fragment =>
      rw [(r.dense hlen).2] at hhandle
      obtain ⟨source, code, hplace, hcode, hresolved⟩ := r.fragment_shader hlen hhandle
      exact ⟨source, code, hplace, hcode, r.resolved_ne_nil hlen hresolved,
        r.declaredCode_fragment hlen hresolved⟩
  | shaderModule =>
      have hkey : (Kind.shaderModule, name) ∈ b.handles.handles.keys :=
        List.mem_map.mpr ⟨_, (Dict.find?_eq_some_iff _ _ _).mp hhandle, rfl⟩
      obtain ⟨d, hd⟩ := exists_shaderModule ((r.sound_shaderModules hlen).1.handles hkey)
      have hsome : (b.handles.handle? .shaderModule name).isSome := by
        rw [hhandle, Option.isSome_some]
      rcases ((r.holds hlen).handle name d hd).mp hsome with
        ⟨target, htarget, hid⟩ | ⟨raw, own, hraw, hown, hne⟩
      · obtain ⟨id, hid⟩ := Option.isSome_iff_exists.mp hid
        obtain ⟨-, code, -, -, hresolved⟩ := r.fragment_shader hlen hid
        have hne := r.resolved_ne_nil hlen hresolved
        obtain ⟨handle', source, hhandle', hplace, hcode⟩ :=
          r.reference_shader hlen hd htarget hresolved hne
        obtain rfl : handle = handle' := Option.some.inj (hhandle.symm.trans hhandle')
        exact ⟨source, code, hplace, hcode, hne,
          .reference hd htarget (r.declaredCode_fragment hlen hresolved)⟩
      · obtain ⟨prop, hp, href, rfl⟩ := Declaration.inlineCode?_eq_some_iff.mp hraw
        obtain ⟨handle', source, hhandle', hplace, hcode⟩ :=
          r.inline_record hlen hd hp href hown hne
        obtain rfl : handle = handle' := Option.some.inj (hhandle.symm.trans hhandle')
        exact ⟨source, _, hplace, hcode, flatten_ne_nil _ _ _ hne, .inline hd hraw hown rfl⟩

end Run

/-- What code a declaration stands for depends on the modules, the kept code and the blobs only. -/
theorem DeclaredCode.congr {s : Setting} {b c : Assembly} {kind : Kind} {name : String}
    {code : Bytes} (h : p.DeclaredCode s b kind name code) (ht : c.table = b.table)
    (hc : c.cache = b.cache) (hs : c.container.blobs = b.container.blobs) :
    p.DeclaredCode s c kind name code := by
  induction h with
  | fragment hd hown hid hm hcode hcache =>
      rw [← ht] at hid hm hcode
      rw [← hs] at hcode
      exact .fragment hd hown hid hm hcode (hc ▸ hcache)
  | reference hd htarget _ ih => exact .reference hd htarget ih
  | inline hd hraw hown hcode =>
      rw [← ht, ← hs] at hcode
      exact .inline hd hraw hown hcode

variable {check : Wgsl.Check} {files : Files} {options : Options} {c : Assembly}

/-- **Every reference is sound.** In a finished assembly:

The dependency table and the module table have the same modules, with the same blobs and
dependencies.

A module is found under its id, and so are its name, its blob and the place of the blob. Its code is
not empty. It depends on at most 32 modules, each once, all of them earlier and all of them
fragments.

The loader is told to resolve imports exactly in runtime mode. Then every instruction creates a
shader from a module of the dependency table, and in legacy mode from a blob that is stored and not
empty.

The instruction at the place that a handle tells creates the shader from the code that the
declaration with the handle stands for, and this code is not empty. -/
theorem references_sound (hlen : p.declarationCount < 2 ^ 31)
    (h : p.assembleWith check files options = .ok c) :
    (c.container.dependencies.count = c.table.count ∧
      ∀ id, c.container.dependencies.get? id =
        (c.table.get? id).map fun m => ⟨m.blob, m.deps⟩) ∧
    (∀ m ∈ c.table.modules, c.table.get? m.id = some m ∧
      (∃ own, c.container.blobs.blob? m.blob = some own ∧ own ≠ []) ∧
      c.container.blobs.offset? m.blob = some m.offset ∧
      c.container.strings.get? m.nameId = some m.name ∧
      m.deps.Nodup ∧ m.deps.length ≤ 32 ∧
      ∀ d ∈ m.deps, d < m.id ∧ ∃ m', c.table.get? d = some m' ∧ m'.kind = .fragment) ∧
    (c.container.flags &&& Container.runtimeFlag ≠ 0 ↔ options.mode = .runtime) ∧
    ∃ sources : List CodeSource, sources.length = c.handles.count.toNat ∧
      Instruction.decodeAll c.container.code = .ok (Instruction.creates sources ++ [.finish]) ∧
      (∀ source ∈ sources, source.Linked c.container options.mode) ∧
      ∀ kind name handle, c.handles.handle? kind name = some handle →
        ∃ source code, sources[handle.toNat]? = some source ∧ c.shaderCode? source = some code ∧
          code ≠ [] ∧ p.DeclaredCode (p.setting check files options) c kind name code := by
  obtain ⟨a, b, r⟩ := exists_run h
  obtain ⟨hsound, -⟩ := r.sound_shaderModules hlen
  have hlinked := r.linked hlen
  obtain ⟨hdense, -⟩ := r.dense hlen
  obtain ⟨sources, hlength, hsources⟩ := hdense.instructions
  obtain ⟨log, rfl⟩ := r.finished
  refine ⟨?_, ?_, flags_finish hlinked.flags _, sources, ?_, ?_, ?_, ?_⟩
  · simp only [finish_table, finish_dependencies]
    exact ⟨hsound.in_step, hlinked.get?_dependencies⟩
  · simp only [finish_table, finish_blobs, finish_strings]
    intro m hm
    have hget := hsound.table.get?_of_mem hm
    obtain ⟨own, hne, hown⟩ := hsound.stored m.id m hget
    obtain ⟨hname, hoffset, hdeps⟩ := hlinked.modules m hm
    exact ⟨hget, ⟨own, hown, hne⟩, hoffset, hname, hdeps.nodup, hdeps.length_le,
      fun d hd => ⟨hsound.table.deps_lt m hm d hd, hdeps.fragment d hd⟩⟩
  · rw [finish_handles]
    exact hlength
  · rw [Container.decodeAll_code, finish_instructions, hsources]
  · intro source hmem
    obtain ⟨i, hi, rfl⟩ := List.mem_iff_getElem.mp hmem
    have hcreated : Instruction.create (UInt32.ofNat i) sources[i] ∈
        b.container.instructions.toList := by
      rw [hsources]
      exact List.mem_mapIdx.mpr ⟨i, hi, rfl⟩
    exact linked_finish (hlinked.sources _ _ hcreated)
  · intro kind name handle hhandle
    rw [finish_handles] at hhandle
    obtain ⟨source, code, hplace, hcode, hne, hdeclared⟩ := r.declaredCode hlen hhandle
    rw [hsources, Instruction.creates, List.getElem?_mapIdx] at hplace
    obtain ⟨source', hsource', heq⟩ := Option.map_eq_some_iff.mp hplace
    rw [(Instruction.create.inj heq).2] at hsource'
    refine ⟨source, code, hsource', ?_, hne, ?_⟩
    · exact (shaderCode?_congr (finish_table _ _) (finish_blobs _ _) source).trans hcode
    · exact hdeclared.congr (finish_table _ _) (finish_cache _ _) (finish_blobs _ _)

/-- A module on a cycle can be had from the container with its name, its code and its dependencies,
and the shader of a shader module comes from the module that it uses. -/
theorem sample_references :
    sample.declarationCount < 2 ^ 31 ∧
    ∃ (c : Assembly) (m : Module),
      sample.assembleWith noCheck noFiles { Options.default with mode := .runtime } = .ok c ∧
      c.container.dependencies.get? 4 = some ⟨m.blob, m.deps⟩ ∧ m.deps = [3, 1] ∧
      c.container.strings.get? m.nameId = some "right" ∧
      c.container.blobs.offset? m.blob = some m.offset ∧
      (∀ d ∈ [3, 1], ∃ m', c.table.get? d = some m' ∧ m'.kind = .fragment) ∧
      c.container.flags &&& Container.runtimeFlag ≠ 0 ∧
      c.handles.handle? .shaderModule "main" = some 5 ∧
      ∃ (sources : List CodeSource) (source : CodeSource) (code : Bytes), sources.length = 7 ∧
        Instruction.decodeAll c.container.code = .ok (Instruction.creates sources ++ [.finish]) ∧
        sources[5]? = some source ∧ source.Linked c.container .runtime ∧
        c.shaderCode? source = some code ∧ code ≠ [] ∧
        sample.DeclaredCode
          (sample.setting noCheck noFiles { Options.default with mode := .runtime }) c
          .shaderModule "main" code := by
  have hlen : sample.declarationCount < 2 ^ 31 := by decide
  have hvalues :
      (sample.assembleWith noCheck noFiles { Options.default with mode := .runtime }).toOption.map
      (fun c => (c.handles.count, c.handles.handle? .shaderModule "main",
        (c.table.get? 4).map fun m => (m.name, m.deps))) =
      some (7, some 5, some ("right", [3, 1])) := by decide +kernel
  cases h : sample.assembleWith noCheck noFiles { Options.default with mode := .runtime } with
  | error e =>
      rw [h] at hvalues
      cases hvalues
  | ok c =>
      rw [h] at hvalues
      simp only [Except.toOption, Option.map_some, Option.some.injEq, Prod.mk.injEq] at hvalues
      obtain ⟨hcount, hmain, hright⟩ := hvalues
      obtain ⟨m, hm, hm'⟩ := Option.map_eq_some_iff.mp hright
      obtain ⟨hname, hdeps⟩ := Prod.mk.inj hm'
      obtain ⟨⟨-, hentries⟩, hmodules, hflags, sources, hlength, hdecode, hlinked, hshaders⟩ :=
        references_sound hlen h
      obtain ⟨-, -, hoffset, hstring, -, -, hfragments⟩ := hmodules m (ModuleTable.mem_of_get? hm)
      obtain ⟨source, code, hsource, hcode, hne, hdeclared⟩ := hshaders _ _ _ hmain
      have hentry := hentries 4
      rw [hm, Option.map_some] at hentry
      rw [hname] at hstring
      rw [hdeps] at hfragments
      rw [hcount] at hlength
      exact ⟨hlen, c, m, rfl, hentry, hdeps, hstring, hoffset, fun d hd => (hfragments d hd).2,
        hflags.mpr rfl, hmain, sources, source, code, hlength, hdecode, hsource,
        hlinked source (List.mem_of_getElem? hsource), hcode, hne, hdeclared⟩

end Program

end ShaderPack
