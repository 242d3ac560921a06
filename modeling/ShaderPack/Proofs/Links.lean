import ShaderPack.Proofs.ResolvedCode

/-!
# Links between the tables

A module names a string, a blob, a place in the pool and other modules; an instruction names a blob
or a module. `Container.Linked` says that all of these are there and are the right ones, and that
the dependency table says the same as the module table.

* `Linked.enter`, `Linked.issue`: adding a module and giving out a handle keep a container linked.
* `FragmentStep.linked`, `ShaderModuleStep.linked`: so does taking in a declaration.
* `Run.linked`: so the container of every assembly is linked.

In runtime mode an instruction never falls back on a blob. For a shader module that uses a fragment,
this rests on the code kept for fragments: where there is any, the fragment has a module
(`CacheSound.exists_module`).
-/

namespace ShaderPack

/-! ### Strings -/

namespace StringTable

variable (t : StringTable) (s : String)

/-- A string adds one entry at most. -/
theorem count_intern_le : (t.intern s).1.count ≤ t.count + 1 := by
  unfold intern
  split
  · exact Nat.le_succ _
  · simp [count]

/-- A string is found under the id that it was given. -/
theorem get?_intern_self (hcount : t.count < 2 ^ 32) :
    (t.intern s).1.get? (t.intern s).2 = some s := by
  unfold intern
  split
  · next i hi =>
    rw [Array.idxOf?_eq_map_finIdxOf?_val] at hi
    obtain ⟨j, hj, rfl⟩ := Option.map_eq_some_iff.mp hi
    have hsize : (UInt32.ofNat j.val).toNat = j.val :=
      UInt32.toNat_ofNat_of_lt' (Nat.lt_trans j.isLt hcount)
    rw [get?, hsize, Array.getElem?_eq_getElem j.isLt]
    exact congrArg some (Array.finIdxOf?_eq_some_iff.mp hj).1
  · have hsize : (UInt32.ofNat t.count).toNat = t.strings.size := UInt32.toNat_ofNat_of_lt' hcount
    rw [get?, hsize, Array.getElem?_push_size]

/-- The other strings keep their ids. -/
theorem get?_intern {t : StringTable} {id : UInt32} {other : String} (h : t.get? id = some other) :
    (t.intern s).1.get? id = some other := by
  unfold intern
  split
  · exact h
  · obtain ⟨hlt, rfl⟩ := Array.getElem?_eq_some_iff.mp h
    exact (Array.getElem?_push_lt hlt).trans rfl

end StringTable

/-! ### Spans -/

namespace BlobStore

variable {s s' : BlobStore} {blob : Bytes} {id : UInt32}

/-- Every span lies in the pool. -/
def InPool (s : BlobStore) : Prop :=
  ∀ span ∈ s.spans, span.offset.toNat + span.length.toNat ≤ s.byteCount

/-- Storing a blob keeps the spans in the pool. -/
theorem InPool.add? (hpool : s.InPool) (h : s.add? blob = some (s', id)) : s'.InPool := by
  obtain ⟨hle, hbytes, hspans, -⟩ := add?_eq_some h
  have hcount : s'.byteCount = s.byteCount + blob.length := by
    rw [byteCount_eq, byteCount_eq, hbytes, List.length_append]
  intro span hspan
  rw [hspans] at hspan
  rw [hcount]
  rcases Array.mem_push.mp hspan with hold | rfl
  · exact Nat.le_add_right_of_le (hpool span hold)
  · exact Nat.add_le_add (Nat.mod_le _ _) (Nat.mod_le _ _)

/-- Storing a blob leaves the offsets of the others. -/
theorem offset?_add? (h : s.add? blob = some (s', id)) {i offset : UInt32}
    (hoffset : s.offset? i = some offset) : s'.offset? i = some offset := by
  obtain ⟨span, hspan, rfl⟩ := Option.map_eq_some_iff.mp hoffset
  rw [offset?, span?_add? h hspan, Option.map_some]

end BlobStore

/-- A new entry leaves the others under their ids. -/
theorem DependencyTable.get?_add {t : DependencyTable} {id : UInt32} {e : DependencyEntry}
    (h : t.get? id = some e) (blob : UInt32) (deps : List UInt32) :
    (t.add blob deps).1.get? id = some e := by
  have hlt : id.toNat < t.entries.size := (Array.getElem?_eq_some_iff.mp h).1
  rw [get?, add, Array.getElem?_push_lt hlt, ← h, get?, Array.getElem?_eq_getElem hlt]

/-! ### Imports -/

/-- Leaving out repetitions leaves no repetition, and makes a list no longer. -/
theorem eraseDups_nodup {α : Type} [BEq α] [LawfulBEq α] (xs : List α) :
    xs.eraseDups.Nodup ∧ xs.eraseDups.length ≤ xs.length := by
  match xs with
  | [] => simp
  | x :: xs =>
      obtain ⟨hnodup, hlength⟩ := eraseDups_nodup (xs.filter fun y => !y == x)
      rw [List.eraseDups_cons]
      refine ⟨List.nodup_cons.mpr ⟨?_, hnodup⟩, ?_⟩
      · simp [List.mem_eraseDups]
      · rw [List.length_cons, List.length_cons]
        exact Nat.succ_le_succ (hlength.trans (List.length_filter_le _ _))
termination_by xs.length
decreasing_by exact Nat.lt_succ_of_le (List.length_filter_le _ _)

/-- A declaration has at most 32 imports. -/
theorem Declaration.length_imports_le (d : Declaration) : (imports d).length ≤ 32 := by
  unfold imports
  split
  · exact Nat.zero_le _
  · rw [List.length_take]
    exact Nat.min_le_left _ _

/-- What a module may depend on: at most 32 fragments, each once. -/
structure ModuleTable.Dependable (t : ModuleTable) (deps : List UInt32) : Prop where
  nodup : deps.Nodup
  length_le : deps.length ≤ 32
  fragment : ∀ d ∈ deps, ∃ m, t.get? d = some m ∧ m.kind = .fragment

namespace ModuleTable

variable {t t' : ModuleTable} {deps : List UInt32}

/-- What can be depended on still can when modules come in. -/
theorem Dependable.of_extends (h : t.Dependable deps) (ht : t.Extends t') : t'.Dependable deps where
  nodup := h.nodup
  length_le := h.length_le
  fragment d hd := by
    obtain ⟨m, hm, hkind⟩ := h.fragment d hd
    exact ⟨m, ht.get? hm, hkind⟩

/-- The imports of a declaration can be depended on. -/
theorem WellFormed.dependable (ht : t.WellFormed) (d : Declaration) :
    t.Dependable (t.importIds (Declaration.imports d)) where
  nodup := (eraseDups_nodup _).1
  length_le := calc
    (t.importIds (Declaration.imports d)).length
      ≤ ((Declaration.imports d).filterMap t.fragmentId?).length := (eraseDups_nodup _).2
    _ ≤ (Declaration.imports d).length := List.length_filterMap_le _ _
    _ ≤ 32 := Declaration.length_imports_le d
  fragment id hid := by
    obtain ⟨name, -, hname⟩ := List.mem_filterMap.mp (List.mem_eraseDups.mp hid)
    obtain ⟨m, hm, hkey⟩ := (lookup_eq_some_iff ht).mp hname
    exact ⟨m, hm, (Prod.mk.inj hkey).1⟩

end ModuleTable

/-! ### Linked containers -/

/-- What a module says of a container is so. -/
structure Module.Linked (t : ModuleTable) (c : Container) (m : Module) : Prop where
  name : c.strings.get? m.nameId = some m.name
  offset : c.blobs.offset? m.blob = some m.offset
  deps : t.Dependable m.deps

/-- What an instruction creates a shader from is in the container: in legacy mode a blob that is not
empty, in runtime mode a module. -/
inductive CodeSource.Linked (c : Container) : Mode → CodeSource → Prop
  /-- The blob is stored. -/
  | blob {id : UInt32} {code : Bytes} (hcode : c.blobs.blob? id = some code) (hne : code ≠ []) :
      Linked c .legacy (.blob id)
  /-- The module is in the dependency table. -/
  | module {id : UInt32} {e : DependencyEntry} (he : c.dependencies.get? id = some e) :
      Linked c .runtime (.module id)

/-- The dependency table's entry for a module. -/
def Module.dependencyEntry (m : Module) : DependencyEntry := ⟨m.blob, m.deps⟩

namespace Container

/-- The sections of a container fit the modules and each other. -/
structure Linked (mode : Mode) (t : ModuleTable) (c : Container) : Prop where
  dependencies : c.dependencies.entries.toList = t.modules.toList.map Module.dependencyEntry
  strings : c.strings.count ≤ t.count
  spans : c.blobs.InPool
  modules : ∀ m ∈ t.modules, m.Linked t c
  sources : ∀ handle source, .create handle source ∈ c.instructions.toList → source.Linked c mode
  flags : c.flags = 0

namespace Linked

variable {s : Setting} {t : ModuleTable} {c : Container} {mode : Mode}

/-- The dependencies that a container has for an id are those of the module with the id. -/
theorem get?_dependencies (h : c.Linked mode t) (id : UInt32) :
    c.dependencies.get? id = (t.get? id).map Module.dependencyEntry := by
  rw [DependencyTable.get?, ModuleTable.get?, ← Array.getElem?_toList, ← Array.getElem?_toList,
    h.dependencies, List.getElem?_map]

/-- In the empty container everything fits. -/
theorem empty : Container.empty.Linked mode .empty where
  dependencies := rfl
  strings := Nat.le_refl _
  spans span hspan := by simp [Container.empty, BlobStore.empty] at hspan
  modules m hm := by simp [ModuleTable.empty] at hm
  sources handle source hmem := by simp [Container.empty] at hmem
  flags := rfl

/-- Storing a blob keeps a container linked. -/
theorem store {code : Bytes} {blobs : BlobStore} {id : UInt32} (h : c.Linked mode t)
    (hadded : c.blobs.add? code = some (blobs, id)) : Container.Linked mode t { c with blobs } where
  dependencies := h.dependencies
  strings := h.strings
  spans := h.spans.add? hadded
  modules m hm := by
    obtain ⟨hname, hoffset, hdeps⟩ := h.modules m hm
    exact ⟨hname, BlobStore.offset?_add? hadded hoffset, hdeps⟩
  sources handle source hmem := by
    cases h.sources handle source hmem with
    | blob hcode hne => exact .blob (BlobStore.keeps_of_add? hadded _ _ hcode) hne
    | module he => exact .module he
  flags := h.flags

/-- An instruction with a linked source keeps a container linked. -/
theorem push {handle : UInt32} {source : CodeSource} (h : c.Linked mode t)
    (hsource : source.Linked c mode) : (c.push (.create handle source)).Linked mode t where
  dependencies := h.dependencies
  strings := h.strings
  spans := h.spans
  modules m hm := by
    obtain ⟨hname, hoffset, hdeps⟩ := h.modules m hm
    exact ⟨hname, hoffset, hdeps⟩
  sources handle' source' hmem := by
    rw [Container.push, Array.toList_push, List.mem_append, List.mem_singleton] at hmem
    have hlinked : source'.Linked c mode := by
      rcases hmem with hmem | heq
      · exact h.sources handle' source' hmem
      · rw [(Instruction.create.inj heq).2]
        exact hsource
    cases hlinked with
    | blob hcode hne => exact .blob hcode hne
    | module he => exact .module he
  flags := h.flags

end Linked

end Container

namespace Assembly

variable {s : Setting} {a b : Assembly} {done : List (Kind × String)} {name : String}
  {d : Declaration}

/-- The container of an assembly is linked. -/
def Linked (mode : Mode) (a : Assembly) : Prop := a.container.Linked mode a.table

/-- Adding a module that depends on imports keeps a container linked. -/
theorem Linked.enter {mode : Mode} {kind : Kind} {own : Bytes} {deps : List UInt32} {m : Module}
    {blobs : BlobStore} (h : a.Linked mode) (ha : a.Sound done) (hlen : done.length < 2 ^ 31)
    (hm : Enters a.table a.container kind name own deps m blobs) (hdeps : a.table.Dependable deps) :
    (a.enter m blobs).Linked mode := by
  have hextends : a.table.Extends (a.enter m blobs).table := ModuleTable.extends_push _ _
  have hname : m.name = name := (Prod.mk.inj hm.key_eq).2
  have hcount : a.container.strings.count < 2 ^ 32 := by
    have := ha.count_le
    have := h.strings
    omega
  obtain ⟨hdependencies, hstrings, hspans, hmodules, hsources, hflags⟩ :=
    Container.Linked.store h hm.added
  refine ⟨?_, ?_, hspans, ?_, ?_, hflags⟩
  · simp only [Assembly.enter, DependencyTable.add, Array.toList_push, List.map_append]
    rw [hdependencies]
    rfl
  · refine (StringTable.count_intern_le _ _).trans ?_
    rw [show (a.enter m blobs).table.count = a.table.count + 1 from ModuleTable.count_push _ _]
    exact Nat.succ_le_succ hstrings
  · intro m' hm'
    rcases Array.mem_push.mp hm' with hold | rfl
    · obtain ⟨hname', hoffset, hdeps'⟩ := hmodules m' hold
      exact ⟨StringTable.get?_intern _ hname', hoffset, hdeps'.of_extends hextends⟩
    · refine ⟨?_, hm.placed, ?_⟩
      · rw [hm.nameId_eq, ← hname]
        exact StringTable.get?_intern_self _ _ hcount
      · rw [hm.deps_eq]
        exact hdeps.of_extends hextends
  · intro handle source hmem
    cases hsources handle source hmem with
    | blob hcode hne => exact .blob hcode hne
    | module he => exact .module (DependencyTable.get?_add he _ _)

/-- Giving out a handle keeps a container linked, if there is code, and in runtime mode a module. -/
theorem Linked.issue (key : Kind × String) {code : Bytes} {module? : Option UInt32}
    {source : CodeSource} {blobs : BlobStore} (h : a.Linked s.options.mode)
    (hbound : a.container.blobs.count < 2 ^ 32) (hne : code ≠ [])
    (hsource : s.Issues a.container code module? source blobs)
    (hmodule : s.options.mode = .runtime → ∃ id m, module? = some id ∧ a.table.get? id = some m) :
    (a.issue key source blobs).Linked s.options.mode := by
  cases hsource with
  | @module id hmode =>
      obtain ⟨id', m, hid, hm⟩ := hmodule hmode
      obtain rfl : id = id' := Option.some.inj hid
      have hentry : a.container.dependencies.get? id = some m.dependencyEntry := by
        rw [h.get?_dependencies, hm, Option.map_some]
      refine Container.Linked.push h ?_
      rw [hmode]
      exact .module hentry
  | @blob module? id blobs hlegacy hadded =>
      have hmode : s.options.mode = .legacy := by
        rcases hlegacy with hmode | rfl
        · exact hmode
        · cases hmode : s.options.mode with
          | legacy => rfl
          | runtime =>
              obtain ⟨id', m, hid, -⟩ := hmodule hmode
              cases hid
      refine Container.Linked.push (Container.Linked.store h hadded) ?_
      rw [hmode]
      exact .blob (BlobStore.blob?_of_add? hadded hbound) hne

/-- Blobs can be counted, also when the code of a module was added. -/
theorem Sound.count_enter_lt {kind : Kind} {own : Bytes} {deps : List UInt32} {m : Module}
    {blobs : BlobStore} (ha : a.Sound done) (hlen : done.length < 2 ^ 31)
    (hm : Enters a.table a.container kind name own deps m blobs) :
    a.container.blobs.count < 2 ^ 32 ∧ blobs.count < 2 ^ 32 := by
  have := ha.blobs
  have := BlobStore.count_of_add? hm.added
  omega

/-- Where code is kept for a fragment, the fragment has a module, and the code is that module's. -/
theorem CacheSound.exists_module (hcache : a.CacheSound) {code : Bytes}
    (h : a.cache.find? name = some code) :
    ∃ id m, a.table.fragmentId? name = some id ∧ a.table.get? id = some m ∧
    a.resolved? id = some code := by
  rw [hcache name] at h
  obtain ⟨id, hid, hcode⟩ := Option.bind_eq_some_iff.mp h
  obtain ⟨m, hm, -⟩ := Option.bind_eq_some_iff.mp hcode
  exact ⟨id, m, hid, hm, hcode⟩

/-- A fragment keeps the sections fitting the modules and each other. -/
theorem FragmentStep.linked (h : FragmentStep s a name d b) (ha : a.Sound done)
    (hlen : done.length < 2 ^ 31) (hlinked : a.Linked s.options.mode) :
    b.Linked s.options.mode := by
  cases h with
  | empty _ _ log => exact hlinked
  | @stored own m blobs blobs' code source _ hne hm hcode _ hsource log =>
      have hentered := hlinked.enter ha hlen hm (ha.table.dependable d)
      have hcode' : code ≠ [] := hcode ▸ flatten_ne_nil _ _ _ hne
      exact hentered.issue (.fragment, name) (ha.count_enter_lt hlen hm).2 hcode' hsource
        fun _ => ⟨m.id, m, rfl, ha.get?_enter hlen hm⟩

/-- So does a shader module. -/
theorem ShaderModuleStep.linked (h : ShaderModuleStep s a name d b) (ha : a.Sound done)
    (hlen : done.length < 2 ^ 31) (hcache : a.CacheSound) (hlinked : a.Linked s.options.mode) :
    b.Linked s.options.mode := by
  have hbound : a.container.blobs.count < 2 ^ 32 := by
    have := ha.blobs
    omega
  cases h with
  | missing _ log => exact hlinked
  | dangling _ _ _ log => exact hlinked
  | empty _ _ _ _ log => exact hlinked
  | reference _ _ hcode hne _ hsource log =>
      obtain ⟨id, m, hid, hm, -⟩ := hcache.exists_module hcode
      exact hlinked.issue (.shaderModule, name) hbound hne hsource fun _ => ⟨id, m, hid, hm⟩
  | legacy hmode _ _ _ hne hcode _ hsource log =>
      have hcode' := hcode ▸ flatten_ne_nil _ _ _ hne
      -- a module is asked for in runtime mode only
      refine hlinked.issue (.shaderModule, name) hbound hcode' hsource fun hruntime => ?_
      rw [hmode] at hruntime
      cases hruntime
  | @runtime _ own m blobs blobs' code source _ _ _ _ hne hcode hm _ hsource log =>
      have hentered := hlinked.enter ha hlen hm (ha.table.dependable d)
      have hcode' : code ≠ [] := hcode ▸ flatten_ne_nil _ _ _ hne
      exact hentered.issue (.shaderModule, name) (ha.count_enter_lt hlen hm).2 hcode' hsource
        fun _ => ⟨m.id, m, rfl, ha.get?_enter hlen hm⟩

end Assembly

/-! ### Finished assemblies -/

namespace Program.Run

open Assembly

variable {p : Program} {s : Setting} {a b c : Assembly}

/-- The containers of all assemblies are linked. -/
theorem linked (r : p.Run s a b c) (hlen : p.declarationCount < 2 ^ 31) :
    b.Linked s.options.mode := by
  obtain ⟨hnodup, hlen'⟩ := fragment_keys hlen
  have ha : a.Linked s.options.mode := by
    refine (run_induction (P := fun done a => a.Sound done ∧ a.Linked s.options.mode) ?_
      hnodup hlen' ⟨sound_empty _, Container.Linked.empty⟩ r.fragments).2
    rintro done a e b - - hshort ⟨ha, hlinked⟩ hstep
    have h := addFragment_step hstep
    exact ⟨h.change.sound ha hshort, h.linked ha hshort hlinked⟩
  refine (run_induction
    (P := fun done a => a.Sound done ∧ a.CacheSound ∧ a.Linked s.options.mode) ?_
    p.nodup_declarations (length_declarations p ▸ hlen)
    ⟨r.sound_fragments hlen, (r.cacheSound hlen).1, ha⟩ r.shaderModules).2.2
  rintro done a e b - hkey hshort ⟨ha, hcache, hlinked⟩ hstep
  have h := addShaderModule_step hstep
  exact ⟨h.change.sound ha hshort, h.cacheSound ha hkey hcache, h.linked ha hshort hcache hlinked⟩

end Program.Run

end ShaderPack
