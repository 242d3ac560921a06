import ShaderPack.Proofs.Runs

/-!
# Flattened code and the module table

The flattened code of a fragment is put together while the tables are still growing. It is
nevertheless what the finished tables say: flattening a module later, over all modules and all code,
gives the same bytes.

* `Assembly.resolved?`: the flattened code of a module, as the tables have it.
* `resolved?_of_extends`: it stays the same while the tables grow.
* `CacheSound`: the code that was kept for a fragment is the flattened code of its module; every run
  keeps this (`Run.cacheSound`).
* `Run.split`, `Run.split_shaderModule`: the run at a fragment and at a shader module.
* `Run.fragment_record`, `Run.stored_record`: what the finished tables hold of a fragment, in terms
  of its declaration and of its place in the schedule.
-/

namespace ShaderPack

namespace Assembly

variable {s : Setting} {a b : Assembly} {key : Kind × String} {done : List (Kind × String)}
  {id : UInt32} {m : Module} {name : String} {d : Declaration}

/-! ### The flattened code of a module -/

/-- The code of a module with the code of everything it reaches in front. -/
def resolved? (a : Assembly) (id : UInt32) : Option Bytes :=
  (a.table.get? id).bind fun m =>
    (a.container.blobs.blob? m.blob).map (a.table.flatten a.container.blobs m.deps)

/-- The flattened code of a fragment's module. -/
def resolvedFragment? (a : Assembly) (name : String) : Option Bytes :=
  (a.table.fragmentId? name).bind a.resolved?

/-- The resolved code of a module is its own behind the code of what it depends on. -/
theorem resolved?_eq {own : Bytes} (hm : a.table.get? id = some m)
    (hown : a.container.blobs.blob? m.blob = some own) :
    a.resolved? id = some (a.table.flatten a.container.blobs m.deps own) := by
  rw [resolved?, hm, Option.bind_some, hown, Option.map_some]

/-- The flattened code of a module stays the same while the tables grow. -/
theorem resolved?_of_extends (hwf : a.table.WellFormed) (hstored : a.table.Stored a.container.blobs)
    (ht : a.table.Extends b.table) (hs : a.container.blobs.Keeps b.container.blobs)
    (hm : a.table.get? id = some m) : b.resolved? id = a.resolved? id := by
  obtain ⟨own, -, hown⟩ := hstored id m hm
  have hdeps : ∀ d ∈ m.deps, d.toNat < a.table.count := fun d hd =>
    Nat.lt_trans (hwf.dep_lt hm hd) (ModuleTable.lt_count_of_get? hm)
  rw [resolved?_eq hm hown, resolved?_eq (ht.get? hm) (hs _ _ hown),
    ModuleTable.flatten_of_extends hwf hstored ht hs hdeps]

/-- The resolved code of a fragment stays the same while tables grow, unless it gets a module. -/
theorem resolvedFragment?_of_extends (ha : a.Sound done) (h : a.Extends b)
    (hid : b.table.fragmentId? name = a.table.fragmentId? name) :
    b.resolvedFragment? name = a.resolvedFragment? name := by
  unfold resolvedFragment?
  rw [hid]
  cases hname : a.table.fragmentId? name with
  | none => rfl
  | some id =>
      obtain ⟨m, hm, -⟩ := (ModuleTable.lookup_eq_some_iff ha.table).mp hname
      exact resolved?_of_extends ha.table ha.stored h.table h.blobs hm

/-- A new module's flattened code is what flattening gives when the module has been added. -/
theorem Sound.resolved?_enter {kind : Kind} {own : Bytes} {deps : List UInt32} {blobs : BlobStore}
    (ha : a.Sound done) (hlen : done.length < 2 ^ 31) (hne : own ≠ [])
    (hm : Enters a.table a.container kind name own deps m blobs)
    (ht : b.table = (a.enter m blobs).table) (hs : blobs.Keeps b.container.blobs) :
    b.resolved? m.id = some ((a.enter m blobs).table.flatten blobs m.deps own) := by
  obtain ⟨-, hwf⟩ := ha.enter_table hlen hm
  obtain ⟨hown, hstored⟩ := ha.enter_stored hlen hne hm
  have hget := ha.get?_enter hlen hm
  have hgrow : (a.enter m blobs).table.Extends b.table := ht ▸ ModuleTable.Extends.refl _
  rw [resolved?_of_extends hwf hstored hgrow hs hget]
  exact resolved?_eq hget hown

/-- A fragment whose module was just added has that module's flattened code. -/
theorem Sound.resolvedFragment?_enter {own : Bytes} {deps : List UInt32} {blobs : BlobStore}
    (ha : a.Sound done) (hlen : done.length < 2 ^ 31) (hne : own ≠ [])
    (hm : Enters a.table a.container .fragment name own deps m blobs)
    (ht : b.table = (a.enter m blobs).table) (hs : blobs.Keeps b.container.blobs) :
    b.resolvedFragment? name = some ((a.enter m blobs).table.flatten blobs m.deps own) := by
  obtain ⟨-, hwf⟩ := ha.enter_table hlen hm
  have hid : b.table.fragmentId? name = some m.id := by
    rw [ht]
    refine (ModuleTable.lookup_push hwf).trans ?_
    rw [hm.key_eq, if_pos rfl]
  rw [resolvedFragment?, hid, Option.bind_some]
  exact ha.resolved?_enter hlen hne hm ht hs

/-! ### What is kept for fragments -/

/-- The code kept for a fragment is the flattened code of its module. -/
def CacheSound (a : Assembly) : Prop :=
  ∀ name, a.cache.find? name = a.resolvedFragment? name

/-- At the start there is neither code that is kept nor a module. -/
theorem cacheSound_empty (es : List Event) : (empty.note es).CacheSound := fun _ => rfl

/-- The code that is kept for a fragment is the resolved code of its module. -/
theorem FragmentStep.cacheSound (h : FragmentStep s a name d b) (ha : a.Sound done)
    (hkey : (Kind.fragment, name) ∉ done) (hlen : done.length < 2 ^ 31) (hcache : a.CacheSound) :
    b.CacheSound := by
  have hchange := h.change
  have hgrow := hchange.extends ha hkey
  cases h with
  | empty _ _ log => exact hcache
  | @stored own m blobs blobs' code source _ hne hm hcode _ hsource log =>
      intro other
      refine (Dict.find?_insert _ _ _ _).trans ?_
      split
      · next hother =>
        rw [hother, hcode]
        refine Eq.symm
          (ha.resolvedFragment?_enter (b := { ((a.enter m blobs).remember name code).issue
          (.fragment, name) source blobs' with log }) hlen hne hm rfl hsource.keeps)
      · next hother =>
        have hne' : (Kind.fragment, other) ≠ (Kind.fragment, name) := by
          rintro ⟨⟩
          exact hother rfl
        rw [resolvedFragment?_of_extends ha hgrow (hchange.lookup_eq hne')]
        exact hcache other

/-- A shader module does not change the code that is kept. -/
theorem ShaderModuleStep.cache_eq (h : ShaderModuleStep s a name d b) : b.cache = a.cache := by
  cases h <;> rfl

/-- So the kept code stays the resolved code when a shader module is taken in. -/
theorem ShaderModuleStep.cacheSound (h : ShaderModuleStep s a name d b) (ha : a.Sound done)
    (hkey : (Kind.shaderModule, name) ∉ done) (hcache : a.CacheSound) : b.CacheSound := by
  intro other
  have hne : (Kind.fragment, other) ≠ (Kind.shaderModule, name) := by rintro ⟨⟩
  rw [h.cache_eq, resolvedFragment?_of_extends ha (h.change.extends ha hkey)
    (h.change.lookup_eq hne)]
  exact hcache other

end Assembly

/-- What a table makes of names is what another makes of those among them that it knows. -/
theorem ModuleTable.importIds_filter {t t' : ModuleTable} {known names : List String}
    (hknown : ∀ name ∈ names, name ∈ known → t'.fragmentId? name = t.fragmentId? name)
    (hother : ∀ name ∈ names, name ∉ known → t.fragmentId? name = none) :
    t.importIds names = t'.importIds (names.filter (· ∈ known)) := by
  unfold importIds
  rw [List.filterMap_filter]
  congr 1
  apply List.filterMap_congr
  intro name hname
  by_cases hmem : name ∈ known
  · simp [hmem, hknown name hname hmem]
  · simp [hmem, hother name hname hmem]

/-! ### Finished assemblies -/

namespace Program.Run

open Assembly

variable {p : Program} {s : Setting} {a b c : Assembly}

/-- Shader modules keep the code kept for fragments right. -/
theorem cacheSound_shaderModules {done : List (Kind × String)} {es : List (String × Declaration)}
    (hnodup : (done ++ es.map shaderModuleKey).Nodup)
    (hlen : (done ++ es.map shaderModuleKey).length < 2 ^ 31) (ha : a.Sound done)
    (hcache : a.CacheSound) (h : es.foldlM (fun a e => a.addShaderModule s e.1 e.2) a = .ok b) :
    b.CacheSound := by
  refine (run_induction (P := fun done a => a.Sound done ∧ a.CacheSound) ?_ hnodup hlen
    ⟨ha, hcache⟩ h).2
  rintro done a e b - hkey hshort ⟨ha, hcache⟩ hstep
  have h := addShaderModule_step hstep
  exact ⟨h.change.sound ha hshort, h.cacheSound ha hkey hcache⟩

/-- The code kept for fragments is right after the fragments, and after the shader modules. -/
theorem cacheSound (r : p.Run s a b c) (hlen : p.declarationCount < 2 ^ 31) :
    a.CacheSound ∧ b.CacheSound := by
  obtain ⟨hnodup, hlen'⟩ := fragment_keys hlen
  have ha : a.CacheSound := by
    refine (run_induction (P := fun done a => a.Sound done ∧ a.CacheSound) ?_ hnodup hlen'
      ⟨sound_empty _, cacheSound_empty _⟩ r.fragments).2
    rintro done a e b - hkey hshort ⟨ha, hcache⟩ hstep
    have h := addFragment_step hstep
    exact ⟨h.change.sound ha hshort, h.cacheSound ha hkey hshort hcache⟩
  exact ⟨ha, cacheSound_shaderModules p.nodup_declarations (length_declarations p ▸ hlen)
    (r.sound_fragments hlen) ha r.shaderModules⟩

/-- Shader modules do not touch the modules of fragments. -/
theorem fragmentId?_eq (r : p.Run s a b c) (hlen : p.declarationCount < 2 ^ 31) (name : String) :
    b.table.fragmentId? name = a.table.fragmentId? name := by
  exact lookup_run shaderModule_change p.nodup_declarations (length_declarations p ▸ hlen)
    (r.sound_fragments hlen) r.shaderModules (fragment_not_mem_shaderModules name _)

/-- A fragment is new when its turn comes and does not come again, and the fragments before it can
be counted. -/
theorem fresh_fragment (hlen : p.declarationCount < 2 ^ 31)
    {before after : List (String × Declaration)} {e : String × Declaration}
    (hsplit : p.scheduledFragments = before ++ e :: after) :
    fragmentKey e ∉ before.map fragmentKey ∧ fragmentKey e ∉ after.map fragmentKey ∧
      (before.map fragmentKey).length < 2 ^ 31 := by
  obtain ⟨hnodup, hlen'⟩ := fragment_keys hlen
  rw [hsplit, List.map_append, List.nil_append] at hnodup hlen'
  obtain ⟨hfresh, hshort⟩ := fresh_of_nodup hnodup hlen'
  exact ⟨hfresh, (List.nodup_cons.mp (List.nodup_append.mp hnodup).2.1).1, hshort⟩

/-- The run at a place of the schedule: the state in which a fragment is taken in, and what stays as
it is from there to the end. -/
theorem split (r : p.Run s a b c) (hlen : p.declarationCount < 2 ^ 31)
    {before after : List (String × Declaration)} {e : String × Declaration}
    (hsplit : p.scheduledFragments = before ++ e :: after) :
    ∃ a₁ a₂, a₁.Sound (before.map fragmentKey) ∧ FragmentStep s a₁ e.1 e.2 a₂ ∧ a₂.Extends b ∧
      ∀ name, fragmentKey (name, e.2) ∉ after.map fragmentKey →
        b.table.fragmentId? name = a₂.table.fragmentId? name := by
  obtain ⟨hnodup, hlen'⟩ := fragment_keys hlen
  obtain ⟨a₁, a₂, -, h₂, h₃, hsound₁, hsound₂, hgrow⟩ :=
    run_split fragment_change hnodup hlen' (sound_empty _) r.fragments hsplit
  have hkeys : ([] : List (Kind × String)) ++ p.scheduledFragments.map fragmentKey =
      [] ++ before.map fragmentKey ++ [fragmentKey e] ++ after.map fragmentKey := by
    rw [hsplit]
    simp
  rw [hkeys] at hnodup hlen'
  refine ⟨a₁, a₂, hsound₁, addFragment_step h₂, hgrow.trans (r.sound_shaderModules hlen).2, ?_⟩
  intro name hname
  rw [r.fragmentId?_eq hlen]
  exact lookup_run fragment_change hnodup hlen' hsound₂ h₃ hname

/-- A name that is not declared has no module. -/
theorem fragmentId?_of_undeclared (r : p.Run s a b c) (hlen : p.declarationCount < 2 ^ 31)
    {name : String} (hname : p.fragments.find? name = none) : b.table.fragmentId? name = none := by
  rw [r.fragmentId?_eq hlen]
  refine ModuleTable.lookup_eq_none_iff.mpr fun hmem => ?_
  obtain ⟨e, he, hkey⟩ := List.mem_map.mp ((r.sound_fragments hlen).keys hmem)
  rw [Dict.find?_eq_none_iff] at hname
  apply hname
  rw [← (Prod.mk.inj hkey).2]
  exact List.mem_map_of_mem (p.scheduledFragments_perm.mem_iff.mp he)

/-- What the tables hold of a fragment in the end. If it has code of its own, it is a module with
that code, which depends on the modules of those imports that come before it in the schedule. -/
theorem fragment_record (r : p.Run s a b c) (hlen : p.declarationCount < 2 ^ 31)
    {before after : List (String × Declaration)} {name : String} {d : Declaration}
    (hsplit : p.scheduledFragments = before ++ (name, d) :: after) :
    ∃ own, s.expand (Declaration.fragmentCode d) = .ok own ∧
      ((own.text = [] ∧ b.table.fragmentId? name = none) ∨
        (own.text ≠ [] ∧ ∃ m, b.table.fragmentId? name = some m.id ∧ b.table.get? m.id = some m ∧
          b.container.blobs.blob? m.blob = some own.text ∧
          m.deps = b.table.importIds
            ((Declaration.imports d).filter (· ∈ before.map Prod.fst)))) := by
  obtain ⟨a₁, a₂, hsound, hstep, hgrow, hlookup⟩ := r.split hlen hsplit
  obtain ⟨hnew, hname, hlen₁⟩ := fresh_fragment hlen hsplit
  have hnodup := (List.nodup_append.mp p.nodup_declarations).1
  rw [hsplit, List.map_append, List.map_cons] at hnodup
  obtain ⟨-, -, hapart⟩ := List.nodup_append.mp hnodup
  -- the imports mean what is there before the step: those scheduled before, as at the end
  have hunknown : ∀ other, other ∉ before.map Prod.fst → a₁.table.fragmentId? other = none := by
    intro other hother
    refine ModuleTable.lookup_eq_none_iff.mpr fun hmem => hother ?_
    obtain ⟨e, he, hkey⟩ := List.mem_map.mp (hsound.keys hmem)
    exact List.mem_map.mpr ⟨e, he, (Prod.mk.inj hkey).2⟩
  have hknown : ∀ other ∈ before.map Prod.fst,
      b.table.fragmentId? other = a₁.table.fragmentId? other := by
    intro other hother
    obtain ⟨e, he, rfl⟩ := List.mem_map.mp hother
    have hapart' := hapart (fragmentKey e) (List.mem_map_of_mem he)
    have hne : fragmentKey e ≠ fragmentKey (name, d) := hapart' _ List.mem_cons_self
    have hafter : fragmentKey e ∉ after.map fragmentKey := fun hmem =>
      hapart' _ (List.mem_cons_of_mem _ hmem) rfl
    rw [hlookup _ hafter]
    exact hstep.change.lookup_eq hne
  have hself := hlookup name hname
  have hfresh : name ∉ before.map Prod.fst := by
    intro hmem
    obtain ⟨e, he, rfl⟩ := List.mem_map.mp hmem
    exact hnew (List.mem_map.mpr ⟨e, he, rfl⟩)
  cases hstep with
  | @empty own hown hempty log =>
      exact ⟨own, hown, .inl ⟨hempty, hself.trans (hunknown name hfresh)⟩⟩
  | @stored own m blobs blobs' code source hown hne hm hcode hvalid hsource log =>
      obtain ⟨-, hwf⟩ := hsound.enter_table hlen₁ hm
      obtain ⟨hblob, -⟩ := hsound.enter_stored hlen₁ hne hm
      refine ⟨own, hown, .inr ⟨hne, m, ?_, ?_, ?_, ?_⟩⟩
      · refine hself.trans ((ModuleTable.lookup_push hwf).trans ?_)
        rw [hm.key_eq, if_pos rfl]
      · exact hgrow.table.get? (hsound.get?_enter hlen₁ hm)
      · exact hgrow.blobs _ _ (hsource.keeps _ _ hblob)
      · rw [hm.deps_eq]
        exact ModuleTable.importIds_filter (fun other _ => hknown other)
          (fun other _ => hunknown other)

/-- A fragment that is a module is declared, and its module is what its declaration and its place in
the schedule say. -/
theorem stored_record (r : p.Run s a b c) (hlen : p.declarationCount < 2 ^ 31) {name : String}
    {id : UInt32} {m : Module} (hid : b.table.fragmentId? name = some id)
    (hm : b.table.get? id = some m) :
    ∃ d own before after, p.fragments.find? name = some d ∧
      p.scheduledFragments = before ++ (name, d) :: after ∧
      s.expand (Declaration.fragmentCode d) = .ok own ∧ own.text ≠ [] ∧
      b.container.blobs.blob? m.blob = some own.text ∧
      m.deps = b.table.importIds ((Declaration.imports d).filter (· ∈ before.map Prod.fst)) := by
  cases hd : p.fragments.find? name with
  | none =>
      rw [r.fragmentId?_of_undeclared hlen hd] at hid
      cases hid
  | some d =>
      have hmem := p.scheduledFragments_perm.mem_iff.mpr ((Dict.find?_eq_some_iff _ _ _).mp hd)
      obtain ⟨before, after, hsplit⟩ := List.append_of_mem hmem
      obtain ⟨own, hown, ⟨-, hnone⟩ | ⟨hne, m', hid', hm', hblob, hdeps⟩⟩ :=
        r.fragment_record hlen hsplit
      · rw [hnone] at hid
        cases hid
      · obtain rfl : m'.id = id := Option.some.inj (hid'.symm.trans hid)
        obtain rfl : m' = m := Option.some.inj (hm'.symm.trans hm)
        exact ⟨d, own, before, after, rfl, hsplit, hown, hne, hblob, hdeps⟩

/-- The declarations that are taken in before the shader modules behind `before`. -/
def doneBefore (p : Program) (before : List (String × Declaration)) : List (Kind × String) :=
  p.scheduledFragments.map fragmentKey ++ before.map shaderModuleKey

/-- A shader module is new when its turn comes, and the declarations before it can be counted. -/
theorem fresh_shaderModule (hlen : p.declarationCount < 2 ^ 31)
    {before after : List (String × Declaration)} {e : String × Declaration}
    (hsplit : p.shaderModules.entries = before ++ e :: after) :
    shaderModuleKey e ∉ doneBefore p before ∧ (doneBefore p before).length < 2 ^ 31 := by
  have hkeys : p.declarations = doneBefore p before ++ (e :: after).map shaderModuleKey := by
    rw [declarations, hsplit, doneBefore]
    simp
  have hnodup := p.nodup_declarations
  rw [← length_declarations] at hlen
  rw [hkeys] at hnodup hlen
  exact fresh_of_nodup hnodup hlen

/-- The run at a shader module: the state in which it is taken in, the state after that, and what
stays as it is from there to the end. -/
theorem split_shaderModule (r : p.Run s a b c) (hlen : p.declarationCount < 2 ^ 31)
    {before after : List (String × Declaration)} {e : String × Declaration}
    (hsplit : p.shaderModules.entries = before ++ e :: after) :
    ∃ b₁ b₂, b₁.Sound (doneBefore p before) ∧
    b₂.Sound (doneBefore p before ++ [shaderModuleKey e]) ∧
      ShaderModuleStep s b₁ e.1 e.2 b₂ ∧ b₂.Extends b ∧ b₁.CacheSound ∧
      (∀ name, b.table.fragmentId? name = b₁.table.fragmentId? name) ∧
      b.table.lookup .shaderModule e.1 = b₂.table.lookup .shaderModule e.1 := by
  have hnodup := p.nodup_declarations
  have hlen' := length_declarations p ▸ hlen
  obtain ⟨hfresh, hshort⟩ := fresh_shaderModule hlen hsplit
  obtain ⟨b₁, b₂, h₁, h₂, h₃, hsound₁, hsound₂, hgrow⟩ :=
    run_split shaderModule_change hnodup hlen' (r.sound_fragments hlen) r.shaderModules hsplit
  have hkeys : p.declarations =
      doneBefore p before ++ [shaderModuleKey e] ++ after.map shaderModuleKey := by
    rw [declarations, hsplit, doneBefore]
    simp
  rw [hkeys] at hnodup hlen'
  have hstep := addShaderModule_step h₂
  have hafter : shaderModuleKey e ∉ after.map shaderModuleKey := fun hmem =>
    (List.nodup_append.mp hnodup).2.2 _ (List.mem_append_right _ (List.mem_singleton.mpr rfl)) _
      hmem rfl
  refine ⟨b₁, b₂, hsound₁, hsound₂, hstep, hgrow, ?_, ?_, ?_⟩
  · have hnodup₁ := (List.nodup_append.mp (List.nodup_append.mp hnodup).1).1
    exact cacheSound_shaderModules hnodup₁ hshort (r.sound_fragments hlen) (r.cacheSound hlen).1 h₁
  · intro name
    refine (lookup_run shaderModule_change hnodup hlen' hsound₂ h₃
      (fragment_not_mem_shaderModules name after)).trans ?_
    exact hstep.change.lookup_eq (by rintro ⟨⟩)
  · exact lookup_run shaderModule_change hnodup hlen' hsound₂ h₃ hafter

end Program.Run

end ShaderPack
