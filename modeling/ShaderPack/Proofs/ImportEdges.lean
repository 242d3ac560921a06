import ShaderPack.Proofs.Locality
import ShaderPack.Proofs.Verdicts

/-!
# No import is lost

The imports of a fragment are read twice: as places, to put the fragments in order, and as names, to
look up the modules that are there when the fragment is taken in. The two readings fit together. A
module depends on everything that its fragment imports and that has a module, but for imports that
the schedule could not put before the fragment; and these are few.

* `Program.ScheduledBefore`, `Program.drainedNames`: the order of the schedule and its tail, by
  name.
* `scheduledBefore_or_drained`: a declared import comes before its fragment, or both are in the
  tail.
* `Run.inline_module`: the module of a shader module with code of its own depends on all of its
  imports that have a module.
* `Program.import_edges_kept`: the statement about a finished assembly.
-/

namespace ShaderPack

/-- The modules of some names: those of names that have one. -/
theorem ModuleTable.mem_importIds_iff {t : ModuleTable} {names : List String} {id : UInt32} :
    id ∈ t.importIds names ↔ ∃ name ∈ names, t.fragmentId? name = some id := by
  rw [importIds, List.mem_eraseDups, List.mem_filterMap]

/-- Taking in a shader module leaves the modules alone, or adds one in runtime mode. -/
theorem Assembly.ShaderModuleStep.table_cases {s : Setting} {a b : Assembly} {name : String}
    {d : Declaration} (h : ShaderModuleStep s a name d b) :
    b.table = a.table ∨
      s.options.mode = .runtime ∧ ∃ own m blobs,
        Enters a.table a.container .shaderModule name own
          (a.table.importIds (Declaration.imports d)) m blobs ∧
          b.table = (a.enter m blobs).table := by
  cases h with
  | missing => exact .inl rfl
  | dangling => exact .inl rfl
  | empty => exact .inl rfl
  | reference => exact .inl rfl
  | legacy => exact .inl rfl
  | runtime hmode _ _ _ _ _ hm => exact .inr ⟨hmode, _, _, _, hm, rfl⟩

namespace Program

variable {p : Program} {x y : String} {d : Declaration}

/-! ### The schedule by name -/

/-- The names of the fragments in the order in which they are taken in. -/
def scheduledNames (p : Program) : List String := p.scheduledFragments.map Prod.fst

/-- Fragment `y` is taken in before fragment `x`. -/
def ScheduledBefore (p : Program) (y x : String) : Prop :=
  p.scheduledNames.idxOf y < p.scheduledNames.idxOf x

instance (p : Program) (y x : String) : Decidable (p.ScheduledBefore y x) :=
  inferInstanceAs (Decidable (_ < _))

/-- The fragments that come last because they depend on a cycle. -/
def drainedNames (p : Program) : List String :=
  p.scheduledNames.drop (p.scheduledNames.length - p.schedule.drained)

/-- A name is scheduled before a fragment exactly if it is among the fragments in front of it. -/
theorem scheduledBefore_iff {before after : List (String × Declaration)}
    (hsplit : p.scheduledFragments = before ++ (x, d) :: after) :
    p.ScheduledBefore y x ↔ y ∈ before.map Prod.fst := by
  have hnames : p.scheduledNames = before.map Prod.fst ++ x :: after.map Prod.fst := by
    rw [scheduledNames, hsplit, List.map_append, List.map_cons]
  have hnodup : (before.map Prod.fst ++ x :: after.map Prod.fst).Nodup := by
    rw [← hnames]
    exact (p.scheduledFragments_perm.map Prod.fst).nodup_iff.mpr p.fragments.nodup
  have hx : x ∉ before.map Prod.fst := fun hmem =>
    (List.nodup_append.mp hnodup).2.2 x hmem x List.mem_cons_self rfl
  rw [ScheduledBefore, hnames, List.idxOf_append, List.idxOf_append, if_neg hx,
    List.idxOf_cons_self, Nat.zero_add]
  by_cases hy : y ∈ before.map Prod.fst
  · simp only [hy, if_true, iff_true]
    exact List.idxOf_lt_length_iff.mpr hy
  · simp only [hy, if_false, iff_false]
    omega

/-- The tail by name is the tail by place. -/
theorem drainedNames_eq (p : Program) : p.drainedNames =
    (p.schedule.tail.filterMap fun i => p.fragments.entries[i]?).map Prod.fst := by
  have hall : ∀ i ∈ p.schedule.tail, (p.fragments.entries[i]?).isSome = true := by
    intro i hi
    have hmem : i ∈ p.schedule.order := List.mem_of_mem_drop hi
    have hlt := List.mem_range.mp ((Schedule.order_perm_range p.importPlaces).mem_iff.mp hmem)
    rw [length_importPlaces] at hlt
    rw [List.getElem?_eq_getElem hlt]
    rfl
  have hlength : (p.schedule.tail.filterMap fun i => p.fragments.entries[i]?).length =
      p.schedule.drained :=
    (List.filterMap_length_eq_length.mpr hall).trans (Schedule.length_tail p.importPlaces)
  have hnames : p.scheduledNames =
      ((Schedule.final p.importPlaces).placed.reverse.filterMap fun i =>
        p.fragments.entries[i]?).map
        Prod.fst ++ (p.schedule.tail.filterMap fun i => p.fragments.entries[i]?).map Prod.fst := by
    rw [scheduledNames, scheduledFragments, ← List.map_append, ← List.filterMap_append]
    congr 2
    exact Schedule.order_eq_append_tail p.importPlaces
  rw [drainedNames, ← hlength, hnames, List.length_append, List.length_map, List.length_map,
    Nat.add_sub_cancel]
  exact List.drop_left' (List.length_map _)

/-- A declared import comes before its fragment in the schedule, or both are in the tail. -/
theorem scheduledBefore_or_drained (hd : p.fragments.find? x = some d)
    (hy : y ∈ Declaration.imports d) (hdeclared : p.fragments.find? y ≠ none) :
    p.ScheduledBefore y x ∨ y ∈ p.drainedNames ∧ x ∈ p.drainedNames := by
  obtain ⟨d', hd'⟩ := Option.ne_none_iff_exists'.mp hdeclared
  obtain ⟨i, hi⟩ := List.mem_iff_getElem?.mp ((Dict.find?_eq_some_iff _ _ _).mp hd)
  obtain ⟨j, hj⟩ := List.mem_iff_getElem?.mp ((Dict.find?_eq_some_iff _ _ _).mp hd')
  have hneeds := needs_of_mem_imports hi hj hy
  have hmem : i ∈ p.schedule.order :=
    (Schedule.order_perm_range p.importPlaces).mem_iff.mpr (List.mem_range.mpr hneeds.lt_left)
  obtain ⟨before, after, horder⟩ := List.append_of_mem hmem
  rcases Schedule.mem_before_or_tail hneeds horder with hbefore | ⟨hitail, hjtail⟩
  · left
    have hsplit : p.scheduledFragments = before.filterMap (fun i => p.fragments.entries[i]?) ++
        (x, d) :: after.filterMap (fun i => p.fragments.entries[i]?) := by
      rw [scheduledFragments, horder, List.filterMap_append, List.filterMap_cons_some hi]
    rw [scheduledBefore_iff hsplit]
    exact List.mem_map.mpr ⟨(y, d'), List.mem_filterMap.mpr ⟨j, hbefore, hj⟩, rfl⟩
  · right
    rw [drainedNames_eq]
    exact ⟨List.mem_map.mpr ⟨(y, d'), List.mem_filterMap.mpr ⟨j, hjtail, hj⟩, rfl⟩,
      List.mem_map.mpr ⟨(x, d), List.mem_filterMap.mpr ⟨i, hitail, hi⟩, rfl⟩⟩

/-! ### Finished assemblies -/

namespace Run

open Assembly

variable {s : Setting} {a b c : Assembly} {id : UInt32} {m : Module}

/-- The dependencies of a fragment's module, by the order of the schedule. -/
theorem deps_eq (r : p.Run s a b c) (hlen : p.declarationCount < 2 ^ 31)
    (hid : b.table.fragmentId? x = some id) (hm : b.table.get? id = some m) :
    ∃ d, p.fragments.find? x = some d ∧
      m.deps = b.table.importIds ((Declaration.imports d).filter (p.ScheduledBefore · x)) := by
  obtain ⟨d, own, before, after, hd, hsplit, -, -, -, hdeps⟩ := r.stored_record hlen hid hm
  refine ⟨d, hd, ?_⟩
  rw [hdeps]
  refine congrArg b.table.importIds (List.filter_congr ?_)
  intro y _
  exact decide_eq_decide.mpr (scheduledBefore_iff hsplit).symm

/-- A fragment that has a module is declared. -/
theorem declared_of_fragmentId? (r : p.Run s a b c) (hlen : p.declarationCount < 2 ^ 31)
    (hid : b.table.fragmentId? x = some id) : p.fragments.find? x ≠ none := by
  intro hnone
  rw [r.fragmentId?_of_undeclared hlen hnone] at hid
  cases hid

/-- A shader module that is a module was taken in in runtime mode, and its module depends on all of
its imports that have one. -/
theorem inline_module (r : p.Run s a b c) (hlen : p.declarationCount < 2 ^ 31)
    (hid : b.table.lookup .shaderModule x = some id) (hm : b.table.get? id = some m) :
    s.options.mode = .runtime ∧ ∃ d, p.shaderModules.find? x = some d ∧
      m.deps = b.table.importIds (Declaration.imports d) := by
  obtain ⟨hsound, -⟩ := r.sound_shaderModules hlen
  -- what is in the table is declared, so the run can be looked at where the shader module is taken
  -- in
  have hkey : (Kind.shaderModule, x) ∈ p.declarations := by
    apply hsound.keys
    by_contra hnot
    rw [ModuleTable.lookup_eq_none_iff.mpr hnot] at hid
    cases hid
  obtain ⟨d, hd⟩ := exists_shaderModule hkey
  obtain ⟨before, after, hsplit⟩ := List.append_of_mem ((Dict.find?_eq_some_iff _ _ _).mp hd)
  obtain ⟨hfresh, hshort⟩ := fresh_shaderModule hlen hsplit
  obtain ⟨b₁, b₂, hsound₁, -, hstep, hgrow, -, hfragments, hlookup⟩ :=
    r.split_shaderModule hlen hsplit
  have himports : b.table.importIds (Declaration.imports d) =
      b₁.table.importIds (Declaration.imports d) := by
    unfold ModuleTable.importIds
    rw [funext hfragments]
  rw [hlookup] at hid
  rcases hstep.table_cases with hsame | ⟨hmode, own, m', blobs, hm', htable⟩
  · have hbefore : b₁.table.lookup .shaderModule x = none :=
      ModuleTable.lookup_eq_none_iff.mpr fun hmem => hfresh (hsound₁.keys hmem)
    rw [hsame, hbefore] at hid
    cases hid
  · obtain ⟨-, hwf⟩ := hsound₁.enter_table hshort hm'
    have hlookup' : b₂.table.lookup .shaderModule x = some m'.id := by
      rw [htable]
      refine (ModuleTable.lookup_push hwf).trans ?_
      rw [hm'.key_eq, if_pos rfl]
    obtain rfl : m'.id = id := Option.some.inj (hlookup'.symm.trans hid)
    have hget : b.table.get? m'.id = some m' := by
      apply hgrow.table.get?
      rw [htable]
      exact hsound₁.get?_enter hshort hm'
    obtain rfl : m' = m := Option.some.inj (hget.symm.trans hm)
    exact ⟨hmode, d, hd, hm'.deps_eq.trans himports.symm⟩

end Run

variable {check : Wgsl.Check} {files : Files} {options : Options} {c : Assembly}

/-- **No import is lost.** Let `x` be a fragment with a module. The module depends on the modules of
those names that `x` imports (the first 32 references of its list of imports), that have a module
and that are scheduled before `x`: in the order in which the names first come up, and each once.

So if no cycle of imports is reached from `x`, the module depends on all imports that have a module.
In general such an import is left out exactly if both it and `x` are in the tail of the schedule,
and it does not come before `x` there.

A shader module has a module in runtime mode only, and then the module depends on all imports that
have a module. -/
theorem import_edges_kept (hlen : p.declarationCount < 2 ^ 31)
    (h : p.assembleWith check files options = .ok c) :
    (∀ x id m, c.table.fragmentId? x = some id → c.table.get? id = some m →
      ∃ d, p.fragments.find? x = some d ∧
        m.deps = (((Declaration.imports d).filter (p.ScheduledBefore · x)).filterMap
          c.table.fragmentId?).eraseDups ∧
        (¬ p.ReachesCycle x → ∀ y ∈ Declaration.imports d, ∀ i, c.table.fragmentId? y = some i →
          i ∈ m.deps) ∧
        ∀ y ∈ Declaration.imports d, ∀ i, c.table.fragmentId? y = some i →
          (i ∉ m.deps ↔ y ∈ p.drainedNames ∧ x ∈ p.drainedNames ∧ ¬ p.ScheduledBefore y x)) ∧
    ∀ x id m, c.table.lookup .shaderModule x = some id → c.table.get? id = some m →
      options.mode = .runtime ∧ ∃ d, p.shaderModules.find? x = some d ∧
        m.deps = ((Declaration.imports d).filterMap c.table.fragmentId?).eraseDups := by
  obtain ⟨a, b, r⟩ := exists_run h
  obtain ⟨hsound, -⟩ := r.sound_shaderModules hlen
  obtain ⟨log, rfl⟩ := r.finished
  simp only [Assembly.finish_table]
  refine ⟨?_, ?_⟩
  · intro x id m hid hm
    obtain ⟨d, hd, hdeps⟩ := r.deps_eq hlen hid hm
    -- a name stands for one module, so a dependency tells which import it comes from
    have hmem : ∀ y ∈ Declaration.imports d, ∀ i, b.table.fragmentId? y = some i →
        (i ∈ m.deps ↔ p.ScheduledBefore y x) := by
      intro y hy i hi
      rw [hdeps, ModuleTable.mem_importIds_iff]
      constructor
      · rintro ⟨z, hz, hzi⟩
        obtain rfl := Assembly.eq_of_fragmentId? hsound.table hi hzi
        simpa using (List.mem_filter.mp hz).2
      · intro hbefore
        exact ⟨y, List.mem_filter.mpr ⟨hy, by simpa using hbefore⟩, hi⟩
    refine ⟨d, hd, hdeps, ?_, ?_⟩
    · intro hacyclic y hy i hi
      obtain ⟨before, after, hsplit, hall⟩ := exists_split hd hacyclic
      rw [hmem y hy i hi, scheduledBefore_iff hsplit]
      exact hall y hy (r.declared_of_fragmentId? hlen hi)
    · intro y hy i hi
      rw [hmem y hy i hi]
      constructor
      · intro hnot
        have hcases := scheduledBefore_or_drained hd hy (r.declared_of_fragmentId? hlen hi)
        obtain ⟨hy', hx'⟩ := hcases.resolve_left hnot
        exact ⟨hy', hx', hnot⟩
      · exact fun hdrained => hdrained.2.2
  · intro x id m hid hm
    exact r.inline_module hlen hid hm

/-- The imports of a declaration that was found, told by evaluating the search. -/
theorem imports_eq_of_find? {es : Dict String Declaration} {names : List String}
    (hd : es.find? x = some d) (h : (es.find? x).map Declaration.imports = some names) :
    Declaration.imports d = names := by
  rw [hd] at h
  exact Option.some.inj h

/-- The sample with one fragment more. Its list of imports has a reference that is written as a
text, items that are no references, and more references than count. -/
def wideSample : Program :=
  { sample with
    fragments := .ofList (sample.fragments.entries ++
      [("wide", .ofList [("value", .text "w"), ("imports", .list
        ([.bool true, .text "hash", .text "$wgsl.", .list [.ident "hash"], .text "$wgsl.noise"] ++
          List.replicate 31 (.ident "math") ++ [.ident "hash"]))])]) }

/-- A fragment without cycles depends on all its imports. One on a cycle misses the import that
comes behind it in the tail. The imports of `wide` are the first 32 references of its list, one of
them written as a text; `hash` is named by a reference in the last place only, so it is none of
them. A shader module has all its imports. -/
theorem sample_import_edges : wideSample.declarationCount < 2 ^ 31 ∧
    ∃ c left noise wide post,
      wideSample.assembleWith noCheck noFiles { Options.default with mode := .runtime } = .ok c ∧
      c.table.get? 2 = some noise ∧ c.table.get? 3 = some wide ∧ c.table.get? 4 = some left ∧
      c.table.get? 6 = some post ∧
      noise.deps = [1, 0] ∧ (∀ y ∈ ["hash", "math", "hash"], ∀ i, c.table.fragmentId? y = some i →
        i ∈ noise.deps) ∧
      left.deps = [] ∧ c.table.fragmentId? "right" = some 5 ∧
      ("right" ∈ wideSample.drainedNames ∧ "left" ∈ wideSample.drainedNames ∧
        ¬ wideSample.ScheduledBefore "right" "left") ∧
      wide.deps = [2, 0] ∧ c.table.fragmentId? "hash" = some 1 ∧
      wide.deps = ((("noise" :: List.replicate 31 "math").filter
        (wideSample.ScheduledBefore · "wide")).filterMap c.table.fragmentId?).eraseDups ∧
      post.deps = [1, 5] ∧
      post.deps = (["hash", "right"].filterMap c.table.fragmentId?).eraseDups := by
  have hlen : wideSample.declarationCount < 2 ^ 31 := by decide +kernel
  have hids : (wideSample.assembleWith noCheck noFiles
      { Options.default with mode := .runtime }).toOption.map (fun c =>
        (["noise", "wide", "left", "right", "hash"].map c.table.fragmentId?,
          c.table.lookup .shaderModule "post")) =
      some ([some 2, some 3, some 4, some 5, some 1], some 6) := by decide +kernel
  have hdeps : (wideSample.assembleWith noCheck noFiles
      { Options.default with mode := .runtime }).toOption.map (fun c =>
        ((c.table.get? 2).map Module.deps, (c.table.get? 3).map Module.deps,
          (c.table.get? 4).map Module.deps, (c.table.get? 6).map Module.deps)) =
      some (some [1, 0], some [2, 0], some [], some [1, 5]) := by decide +kernel
  have himports : (wideSample.fragments.find? "wide").map Declaration.imports =
      some ("noise" :: List.replicate 31 "math") := by decide +kernel
  have hfirst : wideSample.ListsImportsFirst ["blank", "math", "hash", "noise"] := by decide +kernel
  obtain ⟨-, hacyclic⟩ := hfirst.reaches (show "noise" ∈ _ by decide)
  cases h : wideSample.assembleWith noCheck noFiles { Options.default with mode := .runtime } with
  | error e =>
      rw [h] at hids
      cases hids
  | ok c =>
      rw [h] at hids hdeps
      simp only [Except.toOption, Option.map_some, Option.some.injEq, Prod.mk.injEq, List.map_cons,
        List.cons.injEq] at hids hdeps
      obtain ⟨⟨hnoise, hwide, hleft, hright, hhash, -⟩, hpost⟩ := hids
      obtain ⟨hnoise', hwide', hleft', hpost'⟩ := hdeps
      obtain ⟨noise, hmnoise, hdnoise⟩ := Option.map_eq_some_iff.mp hnoise'
      obtain ⟨wide, hmwide, hdwide⟩ := Option.map_eq_some_iff.mp hwide'
      obtain ⟨left, hmleft, hdleft⟩ := Option.map_eq_some_iff.mp hleft'
      obtain ⟨post, hmpost, hdpost⟩ := Option.map_eq_some_iff.mp hpost'
      obtain ⟨hfragments, hinline⟩ := import_edges_kept hlen h
      obtain ⟨d, hd, -, hall, -⟩ := hfragments "noise" 2 noise hnoise hmnoise
      obtain ⟨e, he, hwidedeps, -, -⟩ := hfragments "wide" 3 wide hwide hmwide
      obtain ⟨d', hd', -, -, hmissing⟩ := hfragments "left" 4 left hleft hmleft
      obtain ⟨-, d'', hd'', hpostdeps⟩ := hinline "post" 6 post hpost hmpost
      rw [imports_eq_of_find? hd rfl] at hall
      rw [imports_eq_of_find? he himports] at hwidedeps
      rw [imports_eq_of_find? hd'' rfl] at hpostdeps
      have hmem : "right" ∈ Declaration.imports d' := by
        rw [imports_eq_of_find? hd' rfl]
        decide
      have hdrained := (hmissing "right" hmem 5 hright).mp (by rw [hdleft]; decide)
      exact ⟨hlen, c, left, noise, wide, post, rfl, hmnoise, hmwide, hmleft, hmpost, hdnoise,
        hall hacyclic, hdleft, hright, hdrained, hdwide, hhash, hwidedeps, hdpost, hpostdeps⟩

end Program

end ShaderPack
