import ShaderPack.Proofs.Handles
import ShaderPack.Proofs.ResolvedCode
import ShaderPack.Proofs.Verdicts

/-!
# The two modes agree

In legacy mode every shader has its flattened code stored; in runtime mode it points at a module,
and the loader flattens. The two assemblies of a program have different stores, and different tables
once shader modules with code of their own become modules in runtime mode. They agree on everything
else.

* `Agree a b extra`: `a` was made in legacy mode and `b` in runtime mode; `b` has the modules of `a`
  and then those in `extra`, and the code stored for a shader in `a` is the flattened code of its
  module in `b`.
* `Agree.fragmentStep`, `Agree.shaderModuleStep`: taking in the same declaration on both sides keeps
  this.
* `Matches`: two outcomes match if both failed for one reason or both succeeded with related states,
  unless a store overflowed.
* `Program.modes_agree`: the two assemblies of a program match.
-/

namespace ShaderPack

/-- What there is to say about a module without saying where its code lies. -/
structure ModuleView where
  id : UInt32
  kind : Kind
  name : String
  nameId : UInt32
  deps : List UInt32
  code : Option Bytes

/-- A module as the store shows it. -/
def Module.view (s : BlobStore) (m : Module) : ModuleView :=
  ⟨m.id, m.kind, m.name, m.nameId, m.deps, s.blob? m.blob⟩

namespace Setting

/-- Two settings that differ in nothing but the mode. -/
structure Counterparts (s s' : Setting) : Prop where
  legacy : s.options.mode = .legacy
  runtime : s'.options.mode = .runtime
  expand : ∀ raw, s'.expand raw = s.expand raw
  validate : ∀ kind name code, s'.validate kind name code = s.validate kind name code

variable {s : Setting} {c : Container} {code : Bytes} {source : CodeSource} {blobs : BlobStore}

/-- In legacy mode code is stored. -/
theorem Issues.of_legacy {module? : Option UInt32} (h : s.Issues c code module? source blobs)
    (hmode : s.options.mode = .legacy) :
    ∃ blob, source = .blob blob ∧ c.blobs.add? code = some (blobs, blob) := by
  cases h with
  | module hmode' => simp [hmode] at hmode'
  | @blob _ id _ _ hadded => exact ⟨id, rfl, hadded⟩

/-- In runtime mode a module is used as it is. -/
theorem Issues.of_runtime {id : UInt32} (h : s.Issues c code (some id) source blobs)
    (hmode : s.options.mode = .runtime) : source = .module id ∧ blobs = c.blobs := by
  cases h with
  | module _ => exact ⟨rfl, rfl⟩
  | blob h _ => simp [hmode] at h

end Setting

namespace Assembly

variable {s s' : Setting} {a b a' b' : Assembly} {done : List (Kind × String)} {name : String}
  {d : Declaration} {extra : List ModuleView}

/-! ### Views -/

/-- The modules of an assembly, in the order of their ids. -/
def views (a : Assembly) : List ModuleView :=
  a.table.modules.toList.map (Module.view a.container.blobs)

/-- The view at the place of an id is that of the module with the id. -/
theorem getElem?_views (a : Assembly) (id : UInt32) :
    a.views[id.toNat]? = (a.table.get? id).map (Module.view a.container.blobs) := by
  rw [views, List.getElem?_map, Array.getElem?_toList]
  rfl

/-- There is a view of each module. -/
theorem length_views (a : Assembly) : a.views.length = a.table.count := by
  rw [views, List.length_map, Array.length_toList]
  rfl

/-- More code in the store does not change what is seen of the modules. -/
theorem map_view_of_keeps {t : ModuleTable} {store store' : BlobStore} (hwf : t.WellFormed)
    (hstored : t.Stored store) (h : store.Keeps store') :
    t.modules.toList.map (Module.view store') = t.modules.toList.map (Module.view store) := by
  apply List.map_congr_left
  intro m hm
  obtain ⟨code, -, hcode⟩ := hstored m.id m (hwf.get?_of_mem (Array.mem_toList_iff.mp hm))
  rw [Module.view, Module.view, hcode, h _ _ hcode]

/-- A module that comes in adds its view at the end and leaves the others. -/
theorem Sound.views_enter {kind : Kind} {own : Bytes} {deps : List UInt32} {m : Module}
    {blobs : BlobStore} (ha : a.Sound done) (hlen : done.length < 2 ^ 31) (hne : own ≠ [])
    (hm : Enters a.table a.container kind name own deps m blobs) :
    (a.enter m blobs).views = a.views ++ [⟨UInt32.ofNat a.views.length, kind, name,
      (a.container.strings.intern name).2, deps, some own⟩] := by
  obtain ⟨hown, -⟩ := ha.enter_stored hlen hne hm
  obtain ⟨hkind, hname⟩ := Prod.mk.inj hm.key_eq
  have hview : m.view blobs = ⟨UInt32.ofNat a.views.length, kind, name,
      (a.container.strings.intern name).2, deps, some own⟩ := by
    rw [Module.view, hown, hm.id_eq, hkind, hname, hm.nameId_eq, hm.deps_eq, length_views]
  have hkeep := map_view_of_keeps ha.table ha.stored (BlobStore.keeps_of_add? hm.added)
  rw [← hview]
  unfold views enter
  rw [Array.toList_push, List.map_append, hkeep]
  rfl

/-! ### Agreement -/

/-- The code stored in `a` as the first of two is the flattened code of the module of `b` that is
the second. -/
def SameCode (a b : Assembly) (e : UInt32 × UInt32) : Prop :=
  ∃ code, a.container.blobs.blob? e.1 = some code ∧ b.resolved? e.2 = some code

/-- The instructions of `a` create shaders from stored code, those of `b` the same shaders from
modules. -/
def SameShaders (a b : Assembly) : Prop :=
  ∃ es : List (UInt32 × UInt32), a.handles.next = UInt32.ofNat es.length ∧
    a.container.instructions.toList = Instruction.creates (es.map fun e => .blob e.1) ∧
    b.container.instructions.toList = Instruction.creates (es.map fun e => .module e.2) ∧
    ∀ e ∈ es, SameCode a b e

/-- What two assemblies of the same declarations have in common, `a` made in legacy mode and `b` in
runtime mode: `b` has the modules of `a`, all of them fragments, and then those in `extra`. -/
structure Agree (a b : Assembly) (extra : List ModuleView) : Prop where
  handles : b.handles = a.handles
  cache : b.cache = a.cache
  views : b.views = a.views ++ extra
  fragments : ∀ v ∈ a.views, v.kind = .fragment
  inlines : ∀ v ∈ extra, v.kind = .shaderModule
  shaders : SameShaders a b

/-- At the start the two assemblies agree. -/
theorem agree_empty (es es' : List Event) : Agree (empty.note es) (empty.note es') [] where
  handles := rfl
  cache := rfl
  views := rfl
  fragments v hv := by cases hv
  inlines v hv := by cases hv
  shaders := ⟨[], rfl, rfl, rfl, fun e he => by cases he⟩

namespace Agree

/-- What is noted does not matter. -/
theorem relog (h : Agree a b extra) (log log' : Array Event) :
    Agree { a with log } { b with log := log' } extra :=
  ⟨h.handles, h.cache, h.views, h.fragments, h.inlines, h.shaders⟩

/-- A module of the first assembly is one of the second. -/
theorem exists_get? (h : Agree a b extra) {id : UInt32} {m : Module}
    (hm : a.table.get? id = some m) :
    ∃ m', b.table.get? id = some m' ∧ m'.view b.container.blobs = m.view a.container.blobs := by
  have hview : b.views[id.toNat]? = some (m.view a.container.blobs) := by
    have hleft : a.views[id.toNat]? = some (m.view a.container.blobs) := by
      rw [getElem?_views, hm, Option.map_some]
    rw [h.views, List.getElem?_append_left (List.getElem?_eq_some_iff.mp hleft).1, hleft]
  rw [getElem?_views] at hview
  exact Option.map_eq_some_iff.mp hview

/-- A fragment of the second assembly is one of the first. -/
theorem exists_get?_of_fragment (h : Agree a b extra) {id : UInt32} {m : Module}
    (hm : b.table.get? id = some m) (hkind : m.kind = .fragment) :
    ∃ m', a.table.get? id = some m' ∧ m'.view a.container.blobs = m.view b.container.blobs := by
  have hview : b.views[id.toNat]? = some (m.view b.container.blobs) := by
    rw [getElem?_views, hm, Option.map_some]
  rw [h.views] at hview
  by_cases hlt : id.toNat < a.views.length
  · rw [List.getElem?_append_left hlt, getElem?_views] at hview
    exact Option.map_eq_some_iff.mp hview
  · rw [List.getElem?_append_right (Nat.le_of_not_lt hlt)] at hview
    have hinline := h.inlines _ (List.mem_of_getElem? hview)
    rw [show (m.view b.container.blobs).kind = m.kind from rfl, hkind] at hinline
    cases hinline

/-- A fragment has the same module in both: the modules that runtime mode adds are no fragments, and
come behind. -/
theorem fragmentId?_eq (h : Agree a b extra) (ha : a.Sound done) (hb : b.Sound done)
    (name : String) :
    b.table.fragmentId? name = a.table.fragmentId? name := by
  apply Option.ext
  intro id
  unfold ModuleTable.fragmentId?
  rw [ModuleTable.lookup_eq_some_iff hb.table, ModuleTable.lookup_eq_some_iff ha.table]
  constructor
  · rintro ⟨m, hm, hkey⟩
    obtain ⟨m', hm', hview⟩ := h.exists_get?_of_fragment hm (Prod.mk.inj hkey).1
    refine ⟨m', hm', ?_⟩
    rw [← hkey]
    exact Prod.ext (congrArg ModuleView.kind hview) (congrArg ModuleView.name hview)
  · rintro ⟨m, hm, hkey⟩
    obtain ⟨m', hm', hview⟩ := h.exists_get? hm
    refine ⟨m', hm', ?_⟩
    rw [← hkey]
    exact Prod.ext (congrArg ModuleView.kind hview) (congrArg ModuleView.name hview)

/-- So imports mean the same modules. -/
theorem importIds_eq (h : Agree a b extra) (ha : a.Sound done) (hb : b.Sound done)
    (names : List String) : b.table.importIds names = a.table.importIds names := by
  unfold ModuleTable.importIds
  rw [funext (h.fragmentId?_eq ha hb)]

/-- Both tables flatten imports to the same code. -/
theorem flatten_eq (h : Agree a b extra) (ha : a.Sound done) (hb : b.Sound done)
    (names : List String) (own : Bytes) :
    b.table.flatten b.container.blobs (b.table.importIds names) own =
      a.table.flatten a.container.blobs (a.table.importIds names) own := by
  rw [h.importIds_eq ha hb]
  apply ModuleTable.flatten_congr ha.table
  · intro id m hm
    obtain ⟨m', hm', hview⟩ := h.exists_get? hm
    refine ⟨m', hm', congrArg ModuleView.deps hview, ?_⟩
    have hcode : b.container.blobs.blob? m'.blob = a.container.blobs.blob? m.blob :=
      congrArg ModuleView.code hview
    unfold ModuleTable.contribution
    rw [hm, hm', Option.bind_some, Option.bind_some, hcode]
  · exact fun i hi => ModuleTable.importIds_lt ha.table hi

/-- So the same is found wrong with code. -/
theorem codeVerdict_eq (h : Agree a b extra) (ha : a.Sound done) (hb : b.Sound done)
    (hs : s.Counterparts s') (kind : Kind) (name raw : String) (imports : List String) :
    b.codeVerdict s' kind name raw imports = a.codeVerdict s kind name raw imports := by
  unfold codeVerdict
  rw [hs.expand]
  split
  · rfl
  · rw [hs.validate, h.flatten_eq ha hb]

/-- So the same is found wrong with a shader module. -/
theorem shaderModuleVerdict_eq (h : Agree a b extra) (ha : a.Sound done) (hb : b.Sound done)
    (hs : s.Counterparts s') (name : String) (d : Declaration) :
    b.shaderModuleVerdict s' name d = a.shaderModuleVerdict s name d := by
  unfold shaderModuleVerdict
  simp only [h.cache, hs.validate, h.codeVerdict_eq ha hb hs]

end Agree

/-! ### Steps -/

/-- Shaders stay the same while the tables grow. -/
theorem SameShaders.mono (h : SameShaders a b) (hwf : b.table.WellFormed)
    (hstored : b.table.Stored b.container.blobs) (hnext : a'.handles.next = a.handles.next)
    (hleft : a'.container.instructions = a.container.instructions)
    (hright : b'.container.instructions = b.container.instructions)
    (hkeeps : a.container.blobs.Keeps a'.container.blobs) (ht : b.table.Extends b'.table)
    (hkeeps' : b.container.blobs.Keeps b'.container.blobs) : SameShaders a' b' := by
  obtain ⟨es, hlength, ha, hb, hsame⟩ := h
  refine ⟨es, hnext.trans hlength, hleft ▸ ha, hright ▸ hb, fun e he => ?_⟩
  obtain ⟨code, hblob, hresolved⟩ := hsame e he
  obtain ⟨m, hm, -⟩ := Option.bind_eq_some_iff.mp hresolved
  refine ⟨code, hkeeps _ _ hblob, ?_⟩
  rw [resolved?_of_extends hwf hstored ht hkeeps' hm]
  exact hresolved

namespace Agree

/-- Giving out a handle on both sides: on the left for stored code, on the right for a module whose
flattened code it is. -/
theorem issue (h : Agree a b extra) (hwf : a.table.WellFormed)
    (hstored : a.table.Stored a.container.blobs) (hwf' : b.table.WellFormed)
    (hstored' : b.table.Stored b.container.blobs) {key : Kind × String} {blobs : BlobStore}
    {blob id : UInt32} {code : Bytes} (hkeeps : a.container.blobs.Keeps blobs)
    (hblob : blobs.blob? blob = some code) (hresolved : b.resolved? id = some code)
    (log log' : Array Event) :
    Agree { a.issue key (.blob blob) blobs with log }
      { b.issue key (.module id) b.container.blobs with log := log' } extra := by
  have hviews : ({ a.issue key (.blob blob) blobs with log } : Assembly).views = a.views :=
    map_view_of_keeps hwf hstored hkeeps
  have hnext : b.handles.next = a.handles.next := congrArg HandleTable.next h.handles
  refine ⟨?_, h.cache, ?_, ?_, h.inlines, ?_⟩
  · simp only [Assembly.issue, h.handles]
  · rw [hviews]
    exact h.views
  · rw [hviews]
    exact h.fragments
  · have hgrown : SameShaders { a with container := { a.container with blobs } } b :=
      h.shaders.mono hwf' hstored' rfl rfl rfl hkeeps (.refl _) (.refl _)
    obtain ⟨es, hlength, ha, hb, hsame⟩ := hgrown
    refine ⟨es ++ [(blob, id)], ?_, ?_, ?_, ?_⟩
    · rw [List.length_append, UInt32.ofNat_add, ← hlength]
      rfl
    · simp only [Assembly.issue, Container.push, Array.toList_push]
      rw [List.map_append, List.map_singleton, Instruction.creates_concat, List.length_map,
        ← hlength, ← ha]
    · simp only [Assembly.issue, Container.push, Array.toList_push]
      rw [List.map_append, List.map_singleton, Instruction.creates_concat, List.length_map,
        ← hlength, hb, hnext]
    · intro e he
      rcases List.mem_append.mp he with he | he
      · exact hsame e he
      · rw [List.mem_singleton.mp he]
        exact ⟨code, hblob, hresolved⟩

/-- A shader module that becomes a module on the right only. -/
theorem enter_right (h : Agree a b extra) (hb : b.Sound done) (hlen : done.length < 2 ^ 31)
    {own : Bytes} {deps : List UInt32} {m : Module} {blobs : BlobStore} (hne : own ≠ [])
    (hm : Enters b.table b.container .shaderModule name own deps m blobs) :
    ∃ v, Agree a (b.enter m blobs) (extra ++ [v]) := by
  refine ⟨⟨.ofNat b.views.length, .shaderModule, name, (b.container.strings.intern name).2, deps,
    some own⟩, h.handles, h.cache, ?_, h.fragments, ?_, ?_⟩
  · rw [hb.views_enter hlen hne hm, h.views, List.append_assoc]
  · intro v hv
    rcases List.mem_append.mp hv with hv | hv
    · exact h.inlines v hv
    · rw [List.mem_singleton.mp hv]
  · exact h.shaders.mono hb.table hb.stored rfl rfl rfl (.refl _) (ModuleTable.extends_push _ _)
      (BlobStore.keeps_of_add? hm.added)

/-- A fragment that becomes a module on both sides. -/
theorem enter_both (h : Agree a b []) (ha : a.Sound done) (hb : b.Sound done)
    (hlen : done.length < 2 ^ 31) (hstrings : b.container.strings = a.container.strings)
    {own code : Bytes} {deps : List UInt32} {m m' : Module} {blobs blobs' : BlobStore}
    (hne : own ≠ []) (hm : Enters a.table a.container .fragment name own deps m blobs)
    (hm' : Enters b.table b.container .fragment name own deps m' blobs') :
    Agree ((a.enter m blobs).remember name code) ((b.enter m' blobs').remember name code) [] := by
  have hviews := ha.views_enter hlen hne hm
  have hviews' := hb.views_enter hlen hne hm'
  have hsame : b.views = a.views := h.views.trans (List.append_nil _)
  refine ⟨h.handles, ?_, ?_, ?_, h.inlines, ?_⟩
  · simp only [remember, enter, h.cache]
  · show (b.enter m' blobs').views = (a.enter m blobs).views ++ []
    rw [hviews', hviews, hsame, hstrings, List.append_nil]
  · intro v hv
    rw [show ((a.enter m blobs).remember name code).views = _ from hviews] at hv
    rcases List.mem_append.mp hv with hv | hv
    · exact h.fragments v hv
    · rw [List.mem_singleton.mp hv]
  · exact h.shaders.mono hb.table hb.stored rfl rfl rfl (BlobStore.keeps_of_add? hm.added)
      (ModuleTable.extends_push _ _) (BlobStore.keeps_of_add? hm'.added)

/-- Taking in the same fragment on both sides keeps the agreement. -/
theorem fragmentStep (h : Agree a b []) (ha : a.Sound done) (hb : b.Sound done)
    (hlen : done.length < 2 ^ 31) (hs : s.Counterparts s')
    (hstrings : b.container.strings = a.container.strings) (hl : FragmentStep s a name d a')
    (hr : FragmentStep s' b name d b') :
    Agree a' b' [] ∧ b'.container.strings = a'.container.strings := by
  have hown_eq : ∀ {own own' : Expansion}, s.expand (Declaration.fragmentCode d) = .ok own →
      s'.expand (Declaration.fragmentCode d) = .ok own' → own' = own := by
    intro own own' hown hown'
    rw [hs.expand, hown] at hown'
    exact (Except.ok.inj hown').symm
  cases hl with
  | empty hown hempty log =>
      cases hr with
      | empty _ _ log' => exact ⟨h.relog log log', hstrings⟩
      | stored hown' hne => exact absurd (hown_eq hown hown' ▸ hempty) hne
  | @stored own m blobs blobs₁ code source hown hne hm hcode _ hsource log =>
      cases hr with
      | empty hown' hempty => exact absurd (hown_eq hown hown' ▸ hempty) hne
      | @stored own' m' _ blobs' code' source' hown' _ hm' hcode' _ hsource' log' =>
          obtain rfl := hown_eq hown hown'
          obtain rfl : code' = code := by
            rw [hcode', hcode, hm'.deps_eq, hm.deps_eq,
              hb.flatten_enter hm' (fun i hi => ModuleTable.importIds_lt hb.table hi),
              ha.flatten_enter hm (fun i hi => ModuleTable.importIds_lt ha.table hi),
              h.flatten_eq ha hb]
          rw [h.importIds_eq ha hb] at hm'
          obtain ⟨blob, rfl, hadded⟩ := hsource.of_legacy hs.legacy
          obtain ⟨rfl, rfl⟩ := hsource'.of_runtime hs.runtime
          have hagree : Agree ((a.enter m blobs).remember name code')
              ((b.enter m' blobs').remember name code') [] :=
                h.enter_both ha hb hlen hstrings hne hm hm'
          obtain ⟨-, hwf⟩ := ha.enter_table hlen hm
          obtain ⟨-, hstored⟩ := ha.enter_stored hlen hne hm
          obtain ⟨-, hwf'⟩ := hb.enter_table hlen hm'
          obtain ⟨-, hstored'⟩ := hb.enter_stored hlen hne hm'
          have hblob : blobs₁.blob? blob = some code' := by
            have hbound := ha.blobs
            have hcount := BlobStore.count_of_add? hm.added
            refine BlobStore.blob?_of_add? hadded ?_
            show blobs.count < 2 ^ 32
            omega
          have hresolved : ((b.enter m' blobs').remember name code').resolved? m'.id = some code' :=
            (hb.resolved?_enter hlen hne hm' rfl (.refl _)).trans (congrArg some hcode'.symm)
          refine ⟨hagree.issue hwf hstored hwf' hstored'
            (BlobStore.keeps_of_add? hadded) hblob hresolved log log', ?_⟩
          have hname : m'.name = m.name :=
            (Prod.mk.inj hm'.key_eq).2.trans (Prod.mk.inj hm.key_eq).2.symm
          show (b.container.strings.intern m'.name).1 = (a.container.strings.intern m.name).1
          rw [hstrings, hname]

/-- Taking in the same shader module on both sides keeps the agreement. -/
theorem shaderModuleStep (h : Agree a b extra) (ha : a.Sound done) (hb : b.Sound done)
    (hlen : done.length < 2 ^ 31) (hs : s.Counterparts s') (hcache : b.CacheSound)
    (hl : ShaderModuleStep s a name d a') (hr : ShaderModuleStep s' b name d b') :
    ∃ extra', Agree a' b' extra' := by
  have hbound : a.container.blobs.count < 2 ^ 32 := by
    have := ha.blobs
    omega
  cases hp : Declaration.codeProperty? d with
  | none =>
      obtain ⟨log, rfl⟩ := hl.of_missing hp
      obtain ⟨log', rfl⟩ := hr.of_missing hp
      exact ⟨extra, h.relog log log'⟩
  | some p =>
      cases href : p.reference? with
      | some target =>
          rcases hl.of_reference hp href with
            ⟨hnone, log, rfl⟩ | ⟨code, source, blobs, log, hcode, hne, hsource, rfl⟩
          · rcases hr.of_reference hp href with ⟨-, log', rfl⟩ | ⟨code, _, _, _, hcode, hne, -, -⟩
            · exact ⟨extra, h.relog log log'⟩
            · rw [← h.cache, hcode] at hnone
              exact absurd hnone hne
          · rcases hr.of_reference hp href with
              ⟨hnone, -⟩ | ⟨code', source', blobs', log', hcode', -, hsource', rfl⟩
            · rw [h.cache, hcode] at hnone
              exact absurd hnone hne
            · obtain rfl : code' = code := by
                rw [h.cache, hcode] at hcode'
                exact (Option.some.inj hcode').symm
              -- the cache has code for the fragment, so the fragment is a module
              obtain ⟨id, hid, hresolved⟩ :=
                Option.bind_eq_some_iff.mp ((hcache target).symm.trans hcode')
              rw [hid] at hsource'
              obtain ⟨blob, rfl, hadded⟩ := hsource.of_legacy hs.legacy
              obtain ⟨rfl, rfl⟩ := hsource'.of_runtime hs.runtime
              exact ⟨extra, h.issue ha.table ha.stored hb.table hb.stored
                (BlobStore.keeps_of_add? hadded) (BlobStore.blob?_of_add? hadded hbound)
                hresolved log log'⟩
      | none =>
          obtain ⟨own, hown, hl⟩ := hl.of_inline_legacy hs.legacy hp href
          obtain ⟨own', hown', hr⟩ := hr.of_inline_runtime hs.runtime hp href
          obtain rfl : own' = own := by
            rw [hs.expand, hown] at hown'
            exact (Except.ok.inj hown').symm
          rcases hl with ⟨hempty, log, rfl⟩ | ⟨hne, source, blobs, log, hsource, rfl⟩
          · rcases hr with ⟨-, log', rfl⟩ | ⟨hne, -⟩
            · exact ⟨extra, h.relog log log'⟩
            · exact absurd hempty hne
          · rcases hr with ⟨hempty, -⟩ | ⟨-, m, code, source', blobs', _, log', hm, hsource', rfl⟩
            · exact absurd hempty hne
            · obtain ⟨blob, rfl, hadded⟩ := hsource.of_legacy hs.legacy
              obtain ⟨rfl, rfl⟩ := hsource'.of_runtime hs.runtime
              obtain ⟨-, hwf'⟩ := hb.enter_table hlen hm
              obtain ⟨-, hstored'⟩ := hb.enter_stored hlen hne hm
              obtain ⟨v, hagree⟩ := h.enter_right hb hlen hne hm
              have hresolved := hb.resolved?_enter hlen hne hm rfl (.refl _)
              rw [hm.deps_eq,
                hb.flatten_enter hm (fun i hi => ModuleTable.importIds_lt hb.table hi),
                h.flatten_eq ha hb] at hresolved
              exact ⟨extra ++ [v], hagree.issue ha.table ha.stored hwf' hstored'
                (BlobStore.keeps_of_add? hadded) (BlobStore.blob?_of_add? hadded hbound)
                hresolved log log'⟩

end Agree

/-! ### Outcomes -/

/-- Two outcomes match if both are the same failure, one that is about the program, or both are
states in the relation `R`. Nothing is asked where a store overflowed. -/
inductive Matches (R : Assembly → Assembly → Prop) : Except Failure Assembly →
    Except Failure Assembly → Prop
  | overflow_left {log : Array Event} (y : Except Failure Assembly) :
      Matches R (.error ⟨.storeOverflow BlobStore.limit, log⟩) y
  | overflow_right {log : Array Event} (x : Except Failure Assembly) :
      Matches R x (.error ⟨.storeOverflow BlobStore.limit, log⟩)
  | failed {e : AssemblyError} {log log' : Array Event} (h : ∀ defect, e ≠ .defect defect) :
      Matches R (.error ⟨e, log⟩) (.error ⟨e, log'⟩)
  | succeeded {a b : Assembly} (h : R a b) : Matches R (.ok a) (.ok b)

namespace Matches

variable {R S : Assembly → Assembly → Prop} {x y : Except Failure Assembly}

/-- Outcomes that match go on to outcomes that match. -/
theorem bind {f g : Assembly → Except Failure Assembly} (h : Matches R x y)
    (hfg : ∀ a b, R a b → Matches S (f a) (g b)) : Matches S (x >>= f) (y >>= g) := by
  cases h with
  | overflow_left y => exact .overflow_left _
  | overflow_right x => exact .overflow_right _
  | failed h => exact .failed h
  | succeeded h => exact hfg _ _ h

/-- Outcomes that follow the same verdict match. -/
theorem of_verdict {v : Except AssemblyError Unit}
    (hv : ∀ e, v = .error e → ∀ defect, e ≠ .defect defect)
    (hx : ∀ f, x = .error f → f.error = .storeOverflow BlobStore.limit ∨ v = .error f.error)
    (hy : ∀ f, y = .error f → f.error = .storeOverflow BlobStore.limit ∨ v = .error f.error)
    (hx' : ∀ a, x = .ok a → v = .ok ()) (hy' : ∀ b, y = .ok b → v = .ok ())
    (hok : ∀ a b, x = .ok a → y = .ok b → R a b) : Matches R x y := by
  have hoverflow : ∀ {f : Failure}, f.error = .storeOverflow BlobStore.limit →
      f = ⟨.storeOverflow BlobStore.limit, f.log⟩ := by
    rintro ⟨e, log⟩ rfl
    rfl
  cases x with
  | error f =>
      rcases hx f rfl with hf | hf
      · rw [hoverflow hf]
        exact .overflow_left y
      cases y with
      | error g =>
          rcases hy g rfl with hg | hg
          · rw [hoverflow hg]
            exact .overflow_right _
          · obtain ⟨e, log⟩ := f
            obtain ⟨e', log'⟩ := g
            obtain rfl : e = e' := Except.error.inj (hf.symm.trans hg)
            exact .failed (hv e hf)
      | ok b =>
          rw [hy' b rfl] at hf
          cases hf
  | ok a =>
      cases y with
      | error g =>
          rcases hy g rfl with hg | hg
          · rw [hoverflow hg]
            exact .overflow_right _
          · rw [hx' a rfl] at hg
            cases hg
      | ok b => exact .succeeded (hok a b rfl rfl)

/-- If every step of two runs matches, the runs match. -/
theorem run {α : Type} {f g : Assembly → α → Except Failure Assembly} {keyOf : α → Kind × String}
    {xs : List α} {P : List (Kind × String) → Assembly → Assembly → Prop}
    (hstep : ∀ done a b x, keyOf x ∉ done → done.length < 2 ^ 31 → P done a b →
      Matches (P (done ++ [keyOf x])) (f a x) (g b x))
    (hnodup : (done ++ xs.map keyOf).Nodup) (hlen : (done ++ xs.map keyOf).length < 2 ^ 31)
    (h : P done a b) : Matches (P (done ++ xs.map keyOf)) (xs.foldlM f a) (xs.foldlM g b) := by
  induction xs generalizing a b done with
  | nil =>
      rw [List.map_nil, List.append_nil]
      exact .succeeded h
  | cons x xs ih =>
      obtain ⟨hfresh, hshort⟩ := fresh_of_nodup hnodup hlen
      rw [append_map_cons] at hnodup hlen ⊢
      rw [List.foldlM_cons, List.foldlM_cons]
      apply (hstep done a b x hfresh hshort h).bind
      intro a' b' h'
      exact ih hnodup hlen h'

end Matches

/-! ### Runs -/

/-- Two assemblies after the same declarations. -/
structure Paired (done : List (Kind × String)) (a b : Assembly) : Prop where
  left : a.Sound done
  right : b.Sound done
  dense : a.Dense
  cache : b.CacheSound
  agree : ∃ extra, Agree a b extra

/-- Two assemblies after the same fragments. -/
structure PairedFragments (done : List (Kind × String)) (a b : Assembly) : Prop where
  left : a.Sound done
  right : b.Sound done
  dense : a.Dense
  cache : b.CacheSound
  agree : Agree a b []
  strings : b.container.strings = a.container.strings

/-- A fragment keeps two assemblies paired, and fails in both or in neither. -/
theorem PairedFragments.addFragment (hs : s.Counterparts s') (h : PairedFragments done a b)
    (hkey : (Kind.fragment, name) ∉ done) (hlen : done.length < 2 ^ 31) :
    Matches (PairedFragments (done ++ [(.fragment, name)])) (a.addFragment s name d)
      (b.addFragment s' name d) := by
  have hverdict : b.fragmentVerdict s' name d = a.fragmentVerdict s name d :=
    h.agree.codeVerdict_eq h.left h.right hs _ _ _ _
  refine .of_verdict (v := a.fragmentVerdict s name d) (fun e he => codeVerdict_ne_defect he)
    (fun f hf => addFragment_error h.left hkey hlen hf)
    (fun f hf => hverdict ▸ addFragment_error h.right hkey hlen hf)
    (fun a' ha' => addFragment_verdict h.left (addFragment_step ha'))
    (fun b' hb' => hverdict ▸ addFragment_verdict h.right (addFragment_step hb')) ?_
  intro a' b' ha' hb'
  have hl := addFragment_step ha'
  have hr := addFragment_step hb'
  obtain ⟨hagree, hstrings⟩ := h.agree.fragmentStep h.left h.right hlen hs h.strings hl hr
  exact ⟨hl.change.sound h.left hlen, hr.change.sound h.right hlen,
    hl.change.dense h.left hkey hlen h.dense, hr.cacheSound h.right hkey hlen h.cache,
    hagree, hstrings⟩

/-- So does a shader module, though runtime mode may add a module for it. -/
theorem Paired.addShaderModule (hs : s.Counterparts s') (h : Paired done a b)
    (hkey : (Kind.shaderModule, name) ∉ done) (hlen : done.length < 2 ^ 31) :
    Matches (Paired (done ++ [(.shaderModule, name)])) (a.addShaderModule s name d)
      (b.addShaderModule s' name d) := by
  obtain ⟨extra, hagree⟩ := h.agree
  have hverdict := hagree.shaderModuleVerdict_eq h.left h.right hs name d
  refine .of_verdict (v := a.shaderModuleVerdict s name d)
    (fun e he => shaderModuleVerdict_ne_defect he)
    (fun f hf => addShaderModule_error h.left hkey hlen hf)
    (fun f hf => hverdict ▸ addShaderModule_error h.right hkey hlen hf)
    (fun a' ha' => addShaderModule_verdict (addShaderModule_step ha'))
    (fun b' hb' => hverdict ▸ addShaderModule_verdict (addShaderModule_step hb')) ?_
  intro a' b' ha' hb'
  have hl := addShaderModule_step ha'
  have hr := addShaderModule_step hb'
  exact ⟨hl.change.sound h.left hlen, hr.change.sound h.right hlen,
    hl.change.dense h.left hkey hlen h.dense, hr.cacheSound h.right hkey h.cache,
    hagree.shaderModuleStep h.left h.right hlen hs h.cache hl hr⟩

/-- A shader has one instruction on each side for every handle. -/
theorem Dense.length_eq (h : a.Dense) {sources : List CodeSource}
    (hsources : a.container.instructions.toList = Instruction.creates sources) :
    sources.length = a.handles.next.toNat := by
  obtain ⟨sources', hlength, hsources'⟩ := h.instructions
  have := congrArg List.length (hsources.symm.trans hsources')
  rw [Instruction.creates, Instruction.creates, List.length_mapIdx, List.length_mapIdx] at this
  rw [this, hlength]

end Assembly

/-! ### Programs -/

namespace Program

open Assembly

variable {p : Program} {check : Wgsl.Check} {files : Files} {options : Options}

/-- The settings of one program in the two modes differ in nothing else. -/
theorem counterparts (check : Wgsl.Check) (files : Files) (options : Options) (p : Program) :
    (p.setting check files { options with mode := .legacy }).Counterparts
      (p.setting check files { options with mode := .runtime }) :=
  ⟨rfl, rfl, fun _ => rfl, fun _ _ _ => rfl⟩

/-- The run lemma: the outcomes in the two modes match, and come from assemblies that are paired
after all declarations. -/
theorem assembleWith_matches (check : Wgsl.Check) (files : Files) (options : Options)
    (hlen : p.declarationCount < 2 ^ 31) :
    Matches (fun c c' => ∃ a b log log', Paired p.declarations a b ∧
        c = { a.finish .legacy with log } ∧ c' = { b.finish .runtime with log := log' })
      (p.assembleWith check files { options with mode := .legacy })
      (p.assembleWith check files { options with mode := .runtime }) := by
  have hs := counterparts check files options p
  obtain ⟨hnodup, hlen'⟩ := Run.fragment_keys hlen
  unfold assembleWith
  have hfragments := Matches.run (P := PairedFragments)
    (fun done a b e hkey hshort h => h.addFragment (d := e.2) hs hkey hshort) hnodup hlen'
    ⟨sound_empty p.schedule.events, sound_empty p.schedule.events, dense_empty _,
      cacheSound_empty _, agree_empty _ _, rfl⟩
  refine hfragments.bind fun a b h => ?_
  have hshaderModules := Matches.run (P := Paired)
    (fun done a b e hkey hshort h => h.addShaderModule (d := e.2) hs hkey hshort)
    p.nodup_declarations (length_declarations p ▸ hlen)
    ⟨h.left, h.right, h.dense, h.cache, [], h.agree⟩
  refine hshaderModules.bind fun a b h => ?_
  exact .succeeded ⟨a, b, _, _, h, rfl, rfl⟩

/-- What the finished assemblies of a program have in common, `a` made in legacy mode and `b` in
runtime mode. -/
structure SameOutput (a b : Assembly) : Prop where
  /-- The same declarations have the same handles. -/
  handles : b.handles = a.handles
  /-- The same flattened code is kept for fragments. -/
  cache : b.cache = a.cache
  /-- The modules of `a` are the fragments among the modules of `b`. -/
  modules : a.views = b.views.filter (fun v => v.kind = .fragment)
  /-- Both streams create the same shaders in the same order, and the code stored for a shader in
  `a` is what flattening gives for its module in `b`. -/
  shaders : ∃ es : List (UInt32 × UInt32), es.length = a.handles.count.toNat ∧
    Instruction.decodeAll a.container.code =
      .ok (Instruction.creates (es.map fun e => .blob e.1) ++ [.finish]) ∧
    Instruction.decodeAll b.container.code =
      .ok (Instruction.creates (es.map fun e => .module e.2) ++ [.finish]) ∧
    ∀ e ∈ es, ∃ code, a.container.blobs.blob? e.1 = some code ∧ b.resolved? e.2 = some code

/-- The outcomes of a program in legacy mode and in runtime mode agree: both failed for the same
reason, which is not that the tables do not fit together, or both succeeded with the same output. -/
inductive SameOutcome : Except Failure Assembly → Except Failure Assembly → Prop
  | failed {e : AssemblyError} {log log' : Array Event} (h : ∀ defect, e ≠ .defect defect) :
      SameOutcome (.error ⟨e, log⟩) (.error ⟨e, log'⟩)
  | succeeded {a b : Assembly} (h : SameOutput a b) : SameOutcome (.ok a) (.ok b)

/-- Finishing both sides turns agreement into the same output. -/
theorem sameOutput_of_paired {done : List (Kind × String)} {a b : Assembly} (h : Paired done a b)
    (log log' : Array Event) :
    SameOutput { a.finish .legacy with log } { b.finish .runtime with log := log' } := by
  obtain ⟨extra, hagree⟩ := h.agree
  obtain ⟨es, -, ha, hb, hsame⟩ := hagree.shaders
  refine ⟨hagree.handles, hagree.cache, ?_, es, ?_, ?_, ?_, hsame⟩
  · show a.views = b.views.filter _
    rw [hagree.views, List.filter_append, List.filter_eq_self.mpr, List.filter_eq_nil_iff.mpr,
      List.append_nil]
    · intro v hv
      rw [hagree.inlines v hv]
      decide
    · intro v hv
      rw [hagree.fragments v hv]
      decide
  · rw [← List.length_map (f := fun e : UInt32 × UInt32 => CodeSource.blob e.1)]
    exact h.dense.length_eq ha
  · rw [Container.decodeAll_code, ← ha]
    exact congrArg Except.ok (finish_instructions a .legacy)
  · rw [Container.decodeAll_code, ← hb]
    exact congrArg Except.ok (finish_instructions b .runtime)

/-- **The two modes agree.** Where no store overflows, both assemblies of a program fail for the
same reason, which is never that the tables do not fit together, or both succeed with the same
output: the same handles, the same flattened code of fragments, the same fragments as modules, and
for every handle, stored code in legacy mode that is what flattening gives for the module in runtime
mode, over the finished tables. -/
theorem modes_agree (hlen : p.declarationCount < 2 ^ 31)
    (hlegacy : ∀ log, p.assembleWith check files { options with mode := .legacy } ≠
      .error ⟨.storeOverflow BlobStore.limit, log⟩)
    (hruntime : ∀ log, p.assembleWith check files { options with mode := .runtime } ≠
      .error ⟨.storeOverflow BlobStore.limit, log⟩) :
    SameOutcome (p.assembleWith check files { options with mode := .legacy })
      (p.assembleWith check files { options with mode := .runtime }) := by
  have hmatch := assembleWith_matches check files options hlen
  generalize p.assembleWith check files { options with mode := .legacy } = x at hmatch hlegacy ⊢
  generalize p.assembleWith check files { options with mode := .runtime } = y at hmatch hruntime ⊢
  cases hmatch with
  | overflow_left y => exact absurd rfl (hlegacy _)
  | overflow_right x => exact absurd rfl (hruntime _)
  | failed h => exact .failed h
  | succeeded h =>
      obtain ⟨a, b, log, log', h, rfl, rfl⟩ := h
      exact .succeeded (sameOutput_of_paired h log log')

/-- In runtime mode the sample has one module more, and the output is the same. -/
theorem sample_modes : sample.declarationCount < 2 ^ 31 ∧
    ∃ a b, sample.assembleWith noCheck noFiles { Options.default with mode := .legacy } = .ok a ∧
      sample.assembleWith noCheck noFiles { Options.default with mode := .runtime } = .ok b ∧
      a.table.count = 5 ∧ b.table.count = 6 ∧ SameOutput a b := by
  have hlen : sample.declarationCount < 2 ^ 31 := by decide
  have hcount : (sample.assembleWith noCheck noFiles
      { Options.default with mode := .legacy }).toOption.map (fun a => a.table.count) = some 5 := by
    decide +kernel
  have hcount' : (sample.assembleWith noCheck noFiles
      { Options.default with mode := .runtime }).toOption.map (fun b => b.table.count) =
        some 6 := by
    decide +kernel
  cases ha : sample.assembleWith noCheck noFiles { Options.default with mode := .legacy } with
  | error f =>
      rw [ha] at hcount
      cases hcount
  | ok a =>
      cases hb : sample.assembleWith noCheck noFiles { Options.default with mode := .runtime } with
      | error g =>
          rw [hb] at hcount'
          cases hcount'
      | ok b =>
          have hagree := @modes_agree sample noCheck noFiles .default hlen
            (fun log => by rw [ha]; exact nofun) (fun log => by rw [hb]; exact nofun)
          rw [ha] at hcount hagree
          rw [hb] at hcount' hagree
          cases hagree with
          | succeeded h =>
              exact ⟨hlen, a, b, rfl, rfl, Option.some.inj hcount, Option.some.inj hcount', h⟩

end Program

end ShaderPack
