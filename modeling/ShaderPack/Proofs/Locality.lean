import ShaderPack.Proofs.Expansion
import ShaderPack.Proofs.ResolvedCode

/-!
# Flattened code depends on what is reached

Two programs may schedule their fragments differently, give their modules different ids and store
their code in different places. The flattened code of a fragment is still the same in both, if the
two programs say the same of every fragment that it reaches and no cycle is among these.

* `Program.Imports`, `Program.ReachesCycle`: the graph of imports, by name.
* `exists_split`: if no cycle is reached from a fragment, all of its imports are scheduled before
  it. So its module depends on the modules of all its imports (`Run.record_of_acyclic`), wherever it
  is declared.
* `SameFragment`: two finished assemblies hold the same of a fragment, up to ids. If they do for a
  set of names that is closed under imports, `resolvedFragment?_eq` gives the same flattened code.
* `Program.resolved_code_local`: the statement about two programs.
-/

namespace ShaderPack

namespace Program

variable {p p' : Program} {x y : String} {d : Declaration}

/-! ### Imports by name -/

/-- Fragment `x` imports `y`, which may be undeclared. -/
def Imports (p : Program) (x y : String) : Prop :=
  ∃ d, p.fragments.find? x = some d ∧ y ∈ Declaration.imports d

/-- The name `y` is reached from `x` through imports; `x` reaches itself. -/
def Reaches (p : Program) : String → String → Prop := Relation.ReflTransGen p.Imports

/-- A cycle of imports is reached from `x`. -/
def ReachesCycle (p : Program) (x : String) : Prop :=
  ∃ y, p.Reaches x y ∧ Relation.TransGen p.Imports y y

/-- What reaches a fragment that reaches a cycle reaches the cycle. -/
theorem ReachesCycle.of_reaches (hxy : p.Reaches x y) (h : p.ReachesCycle y) :
    p.ReachesCycle x := by
  obtain ⟨z, hyz, hcycle⟩ := h
  exact ⟨z, hxy.trans hyz, hcycle⟩

/-! ### Imports in the schedule -/

/-- The name of the fragment at a place. -/
def nameAt (p : Program) (i : Nat) : String := ((p.fragments.entries[i]?).map Prod.fst).getD ""

/-- The name at a place is that of the fragment declared there. -/
theorem nameAt_eq {i : Nat} {e : String × Declaration} (h : p.fragments.entries[i]? = some e) :
    p.nameAt i = e.1 := by
  rw [nameAt, h]
  rfl

/-- What a fragment imports, as places. A name that is not declared has the place behind the
last. -/
theorem getElem?_importPlaces (p : Program) (i : Nat) : p.importPlaces[i]? =
    (p.fragments.entries[i]?).map fun e => (Declaration.imports e.2).map fun name =>
      (p.fragments.position? name).getD p.fragments.size := by
  simp [importPlaces, Dict.values, Function.comp_def]

/-- There is a list of places for each fragment. -/
theorem length_importPlaces (p : Program) : p.importPlaces.length = p.fragments.size := by
  simp [importPlaces, Dict.values, Dict.size]

/-- The position of a name is the place at which it is declared. -/
theorem position?_eq_some_iff {i : Nat} : p.fragments.position? x = some i ↔
    ∃ d, p.fragments.entries[i]? = some (x, d) := by
  have hplace : p.fragments.keys[i]? = (p.fragments.entries[i]?).map Prod.fst := by
    rw [Dict.keys, List.getElem?_map]
  constructor
  · intro h
    obtain ⟨hi, hx, -⟩ := List.idxOf?_eq_some_iff.mp h
    rw [List.getElem?_eq_getElem hi, hx] at hplace
    obtain ⟨e, he, rfl⟩ := Option.map_eq_some_iff.mp hplace.symm
    exact ⟨e.2, he⟩
  · rintro ⟨d, hd⟩
    rw [hd, Option.map_some] at hplace
    obtain ⟨k, hk⟩ := Option.isSome_iff_exists.mp
      (List.isSome_idxOf?.mpr (List.mem_of_getElem? hplace))
    obtain ⟨hlt, hx, -⟩ := List.idxOf?_eq_some_iff.mp hk
    -- a name has one place only
    have hsame : k = i := by
      apply (List.getElem?_inj hlt p.fragments.nodup).mp
      exact (List.getElem?_eq_getElem hlt).trans ((congrArg some hx).trans hplace.symm)
    exact hsame ▸ hk

/-- What the schedule sees as a dependency is an import. -/
theorem imports_of_needs {i j : Nat} (h : Schedule.Needs p.importPlaces i j) :
    p.Imports (p.nameAt i) (p.nameAt j) := by
  obtain ⟨hj, places, hplaces, hmem⟩ := h
  rw [getElem?_importPlaces] at hplaces
  obtain ⟨e, he, rfl⟩ := Option.map_eq_some_iff.mp hplaces
  obtain ⟨name, hname, hplace⟩ := List.mem_map.mp hmem
  refine ⟨e.2, ?_, ?_⟩
  · rw [nameAt_eq he]
    exact (Dict.find?_eq_some_iff _ _ _).mpr (List.mem_of_getElem? he)
  · rw [length_importPlaces] at hj
    cases hposition : p.fragments.position? name with
    | none =>
        rw [hposition, Option.getD_none] at hplace
        omega
    | some k =>
        rw [hposition, Option.getD_some] at hplace
        obtain ⟨d, hd⟩ := position?_eq_some_iff.mp hposition
        rw [← hplace, nameAt_eq hd]
        exact hname

/-- An import that is declared is a dependency in the schedule. -/
theorem needs_of_mem_imports {i j : Nat} {d' : Declaration}
    (hi : p.fragments.entries[i]? = some (x, d)) (hj : p.fragments.entries[j]? = some (y, d'))
    (hy : y ∈ Declaration.imports d) : Schedule.Needs p.importPlaces i j := by
  refine ⟨?_, _, by rw [getElem?_importPlaces, hi, Option.map_some], ?_⟩
  · rw [length_importPlaces]
    exact (List.getElem?_eq_some_iff.mp hj).1
  · refine List.mem_map.mpr ⟨y, hy, ?_⟩
    rw [position?_eq_some_iff.mpr ⟨d', hj⟩, Option.getD_some]

/-- If no cycle is reached from a fragment, its declared imports are scheduled before it. -/
theorem exists_split (hd : p.fragments.find? x = some d) (hacyclic : ¬ p.ReachesCycle x) :
    ∃ before after, p.scheduledFragments = before ++ (x, d) :: after ∧
      ∀ y ∈ Declaration.imports d, p.fragments.find? y ≠ none → y ∈ before.map Prod.fst := by
  obtain ⟨i, hi⟩ := List.mem_iff_getElem?.mp ((Dict.find?_eq_some_iff _ _ _).mp hd)
  have hi_lt : i < p.importPlaces.length := by
    rw [length_importPlaces]
    exact (List.getElem?_eq_some_iff.mp hi).1
  have hmem : i ∈ p.schedule.order :=
    (Schedule.order_perm_range p.importPlaces).mem_iff.mpr (List.mem_range.mpr hi_lt)
  obtain ⟨before, after, horder⟩ := List.append_of_mem hmem
  have hacyclic' : ¬ Schedule.ReachesCycle p.importPlaces i := by
    rintro ⟨k, hik, hcycle⟩
    refine hacyclic ⟨p.nameAt k, ?_, hcycle.lift p.nameAt fun _ _ => imports_of_needs⟩
    have hreaches : p.Reaches (p.nameAt i) (p.nameAt k) :=
      hik.lift p.nameAt fun _ _ => imports_of_needs
    rwa [nameAt_eq hi] at hreaches
  refine ⟨before.filterMap fun i => p.fragments.entries[i]?,
    after.filterMap fun i => p.fragments.entries[i]?, ?_, ?_⟩
  · rw [scheduledFragments, horder, List.filterMap_append, List.filterMap_cons_some hi]
  · intro y hy hdeclared
    obtain ⟨d', hd'⟩ := Option.ne_none_iff_exists'.mp hdeclared
    obtain ⟨j, hj⟩ := List.mem_iff_getElem?.mp ((Dict.find?_eq_some_iff _ _ _).mp hd')
    have hbefore := Schedule.mem_of_order_eq hacyclic' (needs_of_mem_imports hi hj hy) horder
    exact List.mem_map.mpr ⟨(y, d'), List.mem_filterMap.mpr ⟨j, hbefore, hj⟩, rfl⟩

namespace Run

variable {s : Setting} {a b c : Assembly}

/-- What the tables hold of a fragment from which no cycle is reached: its place in the schedule
does not matter. -/
theorem record_of_acyclic (r : p.Run s a b c) (hlen : p.declarationCount < 2 ^ 31)
    (hd : p.fragments.find? x = some d) (hacyclic : ¬ p.ReachesCycle x) :
    ∃ own, s.expand (Declaration.fragmentCode d) = .ok own ∧
      ((own.text = [] ∧ b.table.fragmentId? x = none) ∨
        (own.text ≠ [] ∧ ∃ m, b.table.fragmentId? x = some m.id ∧ b.table.get? m.id = some m ∧
          b.container.blobs.blob? m.blob = some own.text ∧
          m.deps = b.table.importIds (Declaration.imports d))) := by
  obtain ⟨before, after, hsplit, hbefore⟩ := exists_split hd hacyclic
  have hsame : b.table.importIds (Declaration.imports d) =
      b.table.importIds ((Declaration.imports d).filter (· ∈ before.map Prod.fst)) := by
    apply ModuleTable.importIds_filter
    · exact fun _ _ _ => rfl
    · intro y hy hnot
      refine r.fragmentId?_of_undeclared hlen ?_
      by_contra hdeclared
      exact hnot (hbefore y hy hdeclared)
  rw [hsame]
  exact r.fragment_record hlen hsplit

end Run

end Program

/-! ### Two assemblies that hold the same of some fragments -/

namespace Assembly

variable {b b' : Assembly} {near : String → Prop} {x : String} {done done' : List (Kind × String)}

/-- Two assemblies hold the same of fragment `x`: it has no module in either, or the modules have
the same code and come from the same imports, all of which are `near`. -/
inductive SameFragment (b b' : Assembly) (near : String → Prop) (x : String) : Prop
  /-- There is no module. -/
  | absent (hid : b.table.fragmentId? x = none) (hid' : b'.table.fragmentId? x = none)
  /-- There are modules with the same code and the same imports. -/
  | present {own : Bytes} {imports : List String} {m m' : Module} (hne : own ≠ [])
      (hid : b.table.fragmentId? x = some m.id) (hm : b.table.get? m.id = some m)
      (hown : b.container.blobs.blob? m.blob = some own)
      (hdeps : m.deps = b.table.importIds imports)
      (hid' : b'.table.fragmentId? x = some m'.id) (hm' : b'.table.get? m'.id = some m')
      (hown' : b'.container.blobs.blob? m'.blob = some own)
      (hdeps' : m'.deps = b'.table.importIds imports) (hnear : ∀ y ∈ imports, near y)

/-- Modules match if they are the modules of one fragment that is `near`. -/
def SameName (b b' : Assembly) (near : String → Prop) (i j : UInt32) : Prop :=
  ∃ x, near x ∧ b.table.fragmentId? x = some i ∧ b'.table.fragmentId? x = some j

/-- A module has one name. -/
theorem eq_of_fragmentId? {t : ModuleTable} (ht : t.WellFormed) {x y : String} {id : UInt32}
    (hx : t.fragmentId? x = some id) (hy : t.fragmentId? y = some id) : x = y := by
  obtain ⟨m, hm, hkey⟩ := (ModuleTable.lookup_eq_some_iff ht).mp hx
  obtain ⟨m', hm', hkey'⟩ := (ModuleTable.lookup_eq_some_iff ht).mp hy
  obtain rfl : m = m' := Option.some.inj (hm.symm.trans hm')
  exact (Prod.mk.inj (hkey.symm.trans hkey')).2

/-- Matching modules are in one-to-one correspondence, since a name has one module and a module one
name. -/
theorem biUnique_sameName (hb : b.Sound done) (hb' : b'.Sound done') :
    Relator.BiUnique (SameName b b' near) := by
  constructor
  · rintro i j k ⟨x, -, hx, hx'⟩ ⟨y, -, hy, hy'⟩
    obtain rfl := eq_of_fragmentId? hb'.table hx' hy'
    exact Option.some.inj (hx.symm.trans hy)
  · rintro i j k ⟨x, -, hx, hx'⟩ ⟨y, -, hy, hy'⟩
    obtain rfl := eq_of_fragmentId? hb.table hx hy
    exact Option.some.inj (hx'.symm.trans hy')

/-- Names that are near have matching modules, or none. -/
theorem SameFragment.rel (h : SameFragment b b' near x) (hx : near x) :
    Option.Rel (SameName b b' near) (b.table.fragmentId? x) (b'.table.fragmentId? x) := by
  cases h with
  | absent hid hid' =>
      rw [hid, hid']
      exact .none
  | present _ hid _ _ _ hid' _ _ _ _ =>
      rw [hid, hid']
      exact .some ⟨x, hx, hid, hid'⟩

/-- If two assemblies hold the same of all near fragments, then matching modules depend on matching
modules. -/
theorem renaming_sameName (hb : b.Sound done) (hb' : b'.Sound done')
    (h : ∀ x, near x → SameFragment b b' near x) :
    ModuleTable.Renaming b.table b'.table (SameName b b' near) := by
  refine ⟨biUnique_sameName hb hb', ?_⟩
  rintro i j ⟨x, hx, hi, hj⟩
  cases h x hx with
  | absent hid _ =>
      rw [hid] at hi
      cases hi
  | @present own imports m m' _ hid hm _ hdeps hid' hm' _ hdeps' hnear =>
      obtain rfl : m.id = i := Option.some.inj (hid.symm.trans hi)
      obtain rfl : m'.id = j := Option.some.inj (hid'.symm.trans hj)
      refine ⟨m, m', hm, hm', ?_⟩
      rw [hdeps, hdeps']
      exact ModuleTable.forall₂_importIds (biUnique_sameName hb hb') fun y hy =>
        (h y (hnear y hy)).rel (hnear y hy)

/-- Matching modules contribute the same code. -/
theorem contribution_sameName (h : ∀ x, near x → SameFragment b b' near x) {i j : UInt32}
    (hij : SameName b b' near i j) :
    b.table.contribution b.container.blobs i = b'.table.contribution b'.container.blobs j := by
  obtain ⟨x, hx, hi, hj⟩ := hij
  cases h x hx with
  | absent hid _ =>
      rw [hid] at hi
      cases hi
  | @present own imports m m' hne hid hm hown _ hid' hm' hown' _ _ =>
      obtain rfl : m.id = i := Option.some.inj (hid.symm.trans hi)
      obtain rfl : m'.id = j := Option.some.inj (hid'.symm.trans hj)
      rw [ModuleTable.contribution_eq hm hown hne, ModuleTable.contribution_eq hm' hown' hne]

/-- Assemblies that hold the same of all fragments near have the same flattened code for each of
them. -/
theorem resolvedFragment?_eq (hb : b.Sound done) (hb' : b'.Sound done')
    (h : ∀ x, near x → SameFragment b b' near x) (hx : near x) :
    b'.resolvedFragment? x = b.resolvedFragment? x := by
  have hR := renaming_sameName hb hb' h
  unfold resolvedFragment?
  cases h x hx with
  | absent hid hid' => rw [hid, hid', Option.bind_none, Option.bind_none]
  | @present own imports m m' hne hid hm hown hdeps hid' hm' hown' hdeps' hnear =>
      have hdeps_rel : List.Forall₂ (SameName b b' near) m.deps m'.deps := by
        rw [hdeps, hdeps']
        exact ModuleTable.forall₂_importIds hR.biUnique fun y hy =>
          (h y (hnear y hy)).rel (hnear y hy)
      rw [hid, hid', Option.bind_some, Option.bind_some, resolved?_eq hm hown,
        resolved?_eq hm' hown',
        ModuleTable.flatten_rel hR (fun i j => contribution_sameName h) hdeps_rel]

end Assembly

/-! ### Two programs -/

namespace Program

open Assembly

variable {p p' : Program} {check : Wgsl.Check} {files : Files} {options : Options}
  {root x y : String}

/-- What a program says of a fragment as far as code goes: the text of its `value` and the names in
its `imports`, if it is declared. Nothing else of the two properties is ever used. -/
def codeOf? (p : Program) (x : String) : Option (String × List String) :=
  (p.fragments.find? x).map fun d => (Declaration.fragmentCode d, Declaration.imports d)

/-- Two programs say the same of everything that is reached from `root` in the first. -/
def AgreeFrom (p p' : Program) (root : String) : Prop :=
  ∀ x, p.Reaches root x → p'.codeOf? x = p.codeOf? x

/-- If two programs say the same of a fragment and one declares it, so does the other, with the same
code and imports. -/
theorem find?_of_codeOf?_eq {d' : Declaration} (h : p'.codeOf? x = p.codeOf? x)
    (hd' : p'.fragments.find? x = some d') :
    ∃ d, p.fragments.find? x = some d ∧ Declaration.fragmentCode d' = Declaration.fragmentCode d ∧
      Declaration.imports d' = Declaration.imports d := by
  unfold codeOf? at h
  rw [hd', Option.map_some] at h
  obtain ⟨d, hd, hcode⟩ := Option.map_eq_some_iff.mp h.symm
  obtain ⟨hvalue, himports⟩ := Prod.mk.inj hcode
  exact ⟨d, hd, hvalue.symm, himports.symm⟩

/-- Imports of what is reached are the same in both programs. -/
theorem AgreeFrom.imports (h : p.AgreeFrom p' root) (hx : p.Reaches root x) (hxy : p'.Imports x y) :
    p.Imports x y := by
  obtain ⟨d', hd', hy⟩ := hxy
  obtain ⟨d, hd, -, himports⟩ := find?_of_codeOf?_eq (h x hx) hd'
  exact ⟨d, hd, himports ▸ hy⟩

/-- What the second program reaches inside the part that both agree on, the first reaches too. -/
theorem AgreeFrom.reaches (h : p.AgreeFrom p' root) (hx : p.Reaches root x) (hxy : p'.Reaches x y) :
    p.Reaches x y := by
  induction hxy with
  | refl => exact .refl
  | tail _ hyz ih => exact ih.tail (h.imports (hx.trans ih) hyz)

/-- The same for one step or more. -/
theorem AgreeFrom.transGen (h : p.AgreeFrom p' root) (hx : p.Reaches root x)
    (hxy : Relation.TransGen p'.Imports x y) : Relation.TransGen p.Imports x y := by
  induction hxy with
  | single hxy => exact .single (h.imports hx hxy)
  | tail _ hyz ih => exact ih.tail (h.imports (hx.trans ih.to_reflTransGen) hyz)

/-- A cycle that is reached in the second program is reached in the first. -/
theorem AgreeFrom.reachesCycle (h : p.AgreeFrom p' root) (hx : p.Reaches root x)
    (hcycle : p'.ReachesCycle x) : p.ReachesCycle root := by
  obtain ⟨y, hxy, hyy⟩ := hcycle
  have hy := hx.trans (h.reaches hx hxy)
  exact ⟨y, hy, h.transGen hy hyy⟩

/-- The finished tables of both programs hold the same of everything that is reached. -/
theorem AgreeFrom.sameFragment (h : p.AgreeFrom p' root) (hacyclic : ¬ p.ReachesCycle root)
    (hlen : p.declarationCount < 2 ^ 31) (hlen' : p'.declarationCount < 2 ^ 31) {s s' : Setting}
    {a b c a' b' c' : Assembly} (r : p.Run s a b c) (r' : p'.Run s' a' b' c')
    (hexpand : ∀ raw, s'.expand raw = s.expand raw) (hx : p.Reaches root x) :
    SameFragment b b' (p.Reaches root) x := by
  cases hd' : p'.fragments.find? x with
  | none =>
      have hd : p.fragments.find? x = none := by
        have hcode := h x hx
        unfold codeOf? at hcode
        rw [hd', Option.map_none] at hcode
        exact Option.map_eq_none_iff.mp hcode.symm
      exact .absent (r.fragmentId?_of_undeclared hlen hd) (r'.fragmentId?_of_undeclared hlen' hd')
  | some d' =>
      obtain ⟨d, hd, hcode, himports⟩ := find?_of_codeOf?_eq (h x hx) hd'
      have hx_acyclic : ¬ p.ReachesCycle x := fun hcycle => hacyclic (hcycle.of_reaches hx)
      have hx_acyclic' : ¬ p'.ReachesCycle x := fun hcycle => hacyclic (h.reachesCycle hx hcycle)
      obtain ⟨own, hown, hrecord⟩ := r.record_of_acyclic hlen hd hx_acyclic
      obtain ⟨own', hown', hrecord'⟩ := r'.record_of_acyclic hlen' hd' hx_acyclic'
      obtain rfl : own' = own := by
        rw [hexpand, hcode, hown] at hown'
        exact (Except.ok.inj hown').symm
      rcases hrecord with ⟨hempty, hid⟩ | ⟨hne, m, hid, hm, hblob, hdeps⟩
      · rcases hrecord' with ⟨-, hid'⟩ | ⟨hne, -⟩
        · exact .absent hid hid'
        · exact absurd hempty hne
      · rcases hrecord' with ⟨hempty, -⟩ | ⟨-, m', hid', hm', hblob', hdeps'⟩
        · exact absurd hempty hne
        · rw [himports] at hdeps'
          exact .present hne hid hm hblob hdeps hid' hm' hblob' hdeps' fun y hy =>
            hx.tail ⟨d, hd, hy⟩

/-- **Flattened code depends on what is reached.** Two programs are assembled with the same options,
files and values of names. If they say the same of every name that is reached from a fragment, and
no cycle of imports is reached from it, then the same flattened code is kept for the fragment in
both, or none in either, whatever else the programs declare and in whatever order. -/
theorem resolved_code_local {c c' : Assembly} (hlen : p.declarationCount < 2 ^ 31)
    (hlen' : p'.declarationCount < 2 ^ 31) (h : p.assembleWith check files options = .ok c)
    (h' : p'.assembleWith check files options = .ok c')
    (hdefines : ∀ name, p'.defineTexts.find? name = p.defineTexts.find? name)
    (hagree : p.AgreeFrom p' root) (hacyclic : ¬ p.ReachesCycle root) :
    c'.cache.find? root = c.cache.find? root := by
  obtain ⟨a, b, r⟩ := exists_run h
  obtain ⟨a', b', r'⟩ := exists_run h'
  have hexpand : ∀ raw, (p'.setting check files options).expand raw =
      (p.setting check files options).expand raw := by
    intro raw
    unfold Setting.expand setting
    simp only [Defines.expand_ofTexts hdefines]
  have hsame : b'.resolvedFragment? root = b.resolvedFragment? root :=
    resolvedFragment?_eq (r.sound_shaderModules hlen).1 (r'.sound_shaderModules hlen').1
      (fun x hx => hagree.sameFragment hacyclic hlen hlen' r r' hexpand hx) .refl
  obtain ⟨log, rfl⟩ := r.finished
  obtain ⟨log', rfl⟩ := r'.finished
  rw [finish_cache, finish_cache, (r.cacheSound hlen).2, (r'.cacheSound hlen').2, hsame]

/-- Every name in a list stands behind everything that it imports. -/
def ListsImportsFirst (p : Program) (names : List String) : Prop :=
  ∀ x ∈ names, ∀ d ∈ p.fragments.find? x, ∀ y ∈ Declaration.imports d, names.idxOf y < names.idxOf x

instance (p : Program) (names : List String) : Decidable (p.ListsImportsFirst names) :=
  inferInstanceAs (Decidable (∀ x ∈ names, _))

/-- Such a list has everything that is reached from its names, and no cycle is. -/
theorem ListsImportsFirst.reaches {names : List String} (h : p.ListsImportsFirst names)
    (hroot : root ∈ names) : (∀ x, p.Reaches root x → x ∈ names) ∧ ¬ p.ReachesCycle root := by
  have hstep : ∀ {x y}, x ∈ names → p.Imports x y → y ∈ names ∧ names.idxOf y < names.idxOf x := by
    rintro x y hx ⟨d, hd, hy⟩
    have hlt := h x hx d hd y hy
    exact ⟨List.idxOf_lt_length_iff.mp (Nat.lt_trans hlt (List.idxOf_lt_length_iff.mpr hx)), hlt⟩
  have hreaches : ∀ x, p.Reaches root x → x ∈ names := by
    intro x hx
    induction hx with
    | refl => exact hroot
    | tail _ hxy ih => exact (hstep ih hxy).1
  refine ⟨hreaches, ?_⟩
  rintro ⟨x, hx, hcycle⟩
  -- along a chain of imports the place in the list goes down
  have hdown : ∀ {y}, Relation.TransGen p.Imports x y → y ∈ names ∧
      names.idxOf y < names.idxOf x := by
    intro y hxy
    induction hxy with
    | single hxy => exact hstep (hreaches x hx) hxy
    | tail _ hyz ih =>
        obtain ⟨hz, hlt⟩ := hstep ih.1 hyz
        exact ⟨hz, Nat.lt_trans hlt ih.2⟩
  exact Nat.lt_irrefl _ (hdown hcycle).2

/-- The fragments that `noise` reaches in `sample`, declared the other way round, among other
declarations and with a different cycle. -/
def rearranged : Program :=
  { empty with
    fragments := .ofList
      [("early", fragmentOf "e" []), ("blank", fragmentOf "" []), ("math", fragmentOf "m" []),
        ("loop", fragmentOf "o" ["loop", "noise"]), ("hash", fragmentOf "h" ["math", "blank"]),
        ("noise", fragmentOf "n" ["hash", "math", "hash"]), ("right", fragmentOf "q" ["hash"])]
    shaderModules := .ofList [("noise", .ofList [("code", .ident "loop")])] }

/-- The same fragments in another order, among others, have other ids and the same code. -/
theorem sample_local : ∃ c c', sample.assembleWith noCheck noFiles .default = .ok c ∧
    rearranged.assembleWith noCheck noFiles .default = .ok c' ∧
    c.table.fragmentId? "noise" = some 2 ∧ c'.table.fragmentId? "noise" = some 3 ∧
    c.cache.find? "noise" = some (Utf8.encode "m\nh\nn") ∧
    c'.cache.find? "noise" = c.cache.find? "noise" := by
  have hsample : (sample.assembleWith noCheck noFiles .default).toOption.map
      (fun c => (c.table.fragmentId? "noise", c.cache.find? "noise")) =
        some (some 2, some (Utf8.encode "m\nh\nn")) := by decide +kernel
  have hrearranged : (rearranged.assembleWith noCheck noFiles .default).toOption.map
      (fun c => c.table.fragmentId? "noise") = some (some 3) := by decide +kernel
  have hfirst : sample.ListsImportsFirst ["blank", "math", "hash", "noise"] := by decide +kernel
  have hsame : ∀ x ∈ ["blank", "math", "hash", "noise"], rearranged.codeOf? x =
      sample.codeOf? x := by
    decide +kernel
  have hroot : "noise" ∈ ["blank", "math", "hash", "noise"] := by decide
  obtain ⟨hreaches, hacyclic⟩ := hfirst.reaches hroot
  cases h : sample.assembleWith noCheck noFiles .default with
  | error e =>
      rw [h] at hsample
      cases hsample
  | ok c =>
      cases h' : rearranged.assembleWith noCheck noFiles .default with
      | error e =>
          rw [h'] at hrearranged
          cases hrearranged
      | ok c' =>
          rw [h] at hsample
          rw [h'] at hrearranged
          obtain ⟨hid, hcode⟩ := Prod.mk.inj (Option.some.inj hsample)
          exact ⟨c, c', rfl, rfl, hid, Option.some.inj hrearranged, hcode,
            resolved_code_local (by decide) (by decide) h h' (fun _ => rfl)
              (fun x hx => hsame x (hreaches x hx)) hacyclic⟩

end Program

end ShaderPack
