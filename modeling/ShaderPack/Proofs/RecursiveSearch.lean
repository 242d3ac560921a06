import ShaderPack.Proofs.ClosureBound
import Mathlib.Algebra.BigOperators.Group.Finset.Basic
import Mathlib.Data.FinEnum

/-!
# The closure as a recursive search

`Registered.search` is depth-first search as one would write it down: list what a module depends on,
then the module, unless it is listed already or not registered. It ends because modules depend on
earlier ones only, so it needs no stack, no path of modules that are entered and not left, and no
limit.

* `Visits.foldl_search`: the relation `Visits`, which the walk follows step by step, describes this
  search.
* `Registered.closure_postOrder`: the closure is the beginning of the list that the search makes
  from the roots, and it is cut off exactly if `searchCost` exceeds the limit.
* `closure_dependency_closed`, `closure_follows_search`: what the closure has, cut off or not, and
  how it compares with the search.
-/

namespace ShaderPack

namespace ModuleTable

variable {t : ModuleTable}

/-! ### The search -/

/-- In a table that registering can give, dependencies have smaller ids, so the recursion ends. -/
theorem Registered.dep_lt (ht : t.Registered) {id d : UInt32} {m : Module} (hm : t.get? id = some m)
    (hd : d ∈ m.deps) : d.toNat < id.toNat := by
  rw [← get?_visible] at hm
  exact ht.wellFormed_visible.dep_lt hm hd

/-- List a module behind everything it depends on, if it is registered and not listed yet. -/
def Registered.search (ht : t.Registered) (id : UInt32) (listed : List UInt32) : List UInt32 :=
  if id ∈ listed then listed
  else
    match _ : t.get? id with
    | none => listed
    | some m => m.deps.attach.foldl (fun listed d => ht.search d.1 listed) listed ++ [id]
termination_by id.toNat
decreasing_by exact ht.dep_lt ‹t.get? id = some m› d.2

/-- List `roots` one after another, each behind everything it depends on. -/
def Registered.postOrder (ht : t.Registered) (roots : List UInt32) : List UInt32 :=
  roots.foldl (fun listed id => ht.search id listed) []

section search

variable (ht : t.Registered) {id : UInt32} {listed : List UInt32}

/-- A listed module is passed over. -/
theorem search_of_mem (hid : id ∈ listed) : ht.search id listed = listed := by
  rw [Registered.search, if_pos hid]

/-- A module that is not registered is passed over. -/
theorem search_of_none (hnone : t.get? id = none) : ht.search id listed = listed := by
  rw [Registered.search]
  split
  · rfl
  · split
    · rfl
    · next m hm => cases hnone.symm.trans hm

/-- Any other module is listed behind what a search from its dependencies lists. -/
theorem search_of_some (hid : id ∉ listed) {m : Module} (hm : t.get? id = some m) :
    ht.search id listed = m.deps.foldl (fun listed d => ht.search d listed) listed ++ [id] := by
  rw [Registered.search, if_neg hid]
  split
  · next hnone => cases hm.symm.trans hnone
  · next m' hm' =>
    cases hm.symm.trans hm'
    exact congrArg (· ++ [id]) (List.foldl_attach (f := fun listed d => ht.search d listed))

end search

/-- The relation describes the function. -/
theorem Visits.foldl_search (ht : t.Registered) {roots found out : List UInt32} {steps : Nat}
    (h : Visits t.visible roots found out steps) :
    roots.foldl (fun listed id => ht.search id listed) found.reverse = out.reverse := by
  -- the relation has the latest found first, the function the earliest
  induction h with
  | done found => rfl
  | listed hid _ ih => rw [List.foldl_cons, search_of_mem ht (List.mem_reverse.mpr hid), ih]
  | unregistered hnone _ ih =>
      rw [get?_visible] at hnone
      rw [List.foldl_cons, search_of_none ht hnone, ih]
  | entered hid hm _ _ ihdeps ihrest =>
      rw [get?_visible] at hm
      rw [List.foldl_cons, search_of_some ht (mt List.mem_reverse.mp hid) hm, ihdeps,
        ← List.reverse_cons, ihrest]

/-! ### Its cost -/

open Classical in
/-- The registered modules that `roots` reach. -/
noncomputable def reached (t : ModuleTable) (roots : List UInt32) : Finset UInt32 :=
  Finset.univ.filter fun id => t.ReachedFrom roots id ∧ (t.get? id).isSome

/-- The modules that are reached are registered, and roots reach them. -/
theorem mem_reached {roots : List UInt32} {id : UInt32} :
    id ∈ t.reached roots ↔ t.ReachedFrom roots id ∧ (t.get? id).isSome := by
  classical
  rw [reached, Finset.mem_filter, and_iff_right (Finset.mem_univ id)]

/-- The steps for a search from `roots`: one for each root and, for each module that is reached, one
to list it and one for each of its dependencies. -/
noncomputable def searchCost (t : ModuleTable) (roots : List UInt32) : Nat :=
  roots.length + ∑ id ∈ t.reached roots, t.visitCost id

/-- The cost of a search can be told from any listing of what is reached. -/
theorem Lists.searchCost_eq {roots ids : List UInt32} (h : t.Lists roots ids) :
    t.searchCost roots = roots.length + (ids.map t.visitCost).sum := by
  have hreached : t.reached roots = ids.toFinset := by
    ext id
    rw [mem_reached, List.mem_toFinset, h.mem_iff]
  rw [searchCost, hreached, List.sum_toFinset _ h.nodup]

theorem stepLimit_eq : stepLimit = 2048 := rfl

/-- What the closure has to do with the search. -/
theorem Registered.closure_postOrder (ht : t.Registered) (roots : List UInt32) :
    t.Lists roots (ht.postOrder roots) ∧ (t.closure roots).order <+: ht.postOrder roots ∧
      ((t.closure roots).cutOff = true ↔ 2048 < t.searchCost roots) ∧
      ((t.closure roots).cutOff = false → (t.closure roots).order = ht.postOrder roots) := by
  obtain ⟨out, hvisits, hlists, hclosure⟩ := ht.exists_visits roots
  have hout : ht.postOrder roots = out.reverse := hvisits.foldl_search ht
  rw [hout, hlists.searchCost_eq, ← stepLimit_eq]
  exact ⟨hlists, hclosure⟩

/-- A search that costs at most the limit is not cut off. -/
theorem Registered.cutOff_eq_false (ht : t.Registered) {roots : List UInt32}
    (hcost : t.searchCost roots ≤ 2048) : (t.closure roots).cutOff = false := by
  obtain ⟨-, -, hcut, -⟩ := ht.closure_postOrder roots
  exact Bool.eq_false_of_not_eq_true fun h => absurd (hcut.mp h) (Nat.not_lt.mpr hcost)

/-! ### The closure -/

/-- In a listing, what a module depends on stands before it. -/
theorem Lists.mem_before {roots before after : List UInt32} {id d : UInt32}
    (h : t.Lists roots (before ++ id :: after)) (hd : t.DependsOn id d) : d ∈ before := by
  have hfirst := h.dependenciesFirst
  rw [List.reverse_append, List.reverse_cons, List.append_assoc] at hfirst
  exact List.mem_reverse.mp (hfirst id before.reverse (List.suffix_append _ _) d hd)

/-- **What a closure has.** Whether it is cut off or not, it lists registered modules that the roots
reach, each once and behind everything it depends on. With steps for the roots, for the modules that
are reached and for their dependencies, it lists all of them. -/
theorem closure_dependency_closed (ht : t.Registered) (roots : List UInt32) :
    (t.closure roots).order.Nodup ∧
      (∀ id ∈ (t.closure roots).order, (t.get? id).isSome ∧ t.ReachedFrom roots id) ∧
      (∀ before id after, (t.closure roots).order = before ++ id :: after →
        ∀ d, t.DependsOn id d → d ∈ before) ∧
      (t.searchCost roots ≤ 2048 →
        ∀ id, t.ReachedFrom roots id → (t.get? id).isSome → id ∈ (t.closure roots).order) := by
  obtain ⟨hlists, hbegin, -, hwhole⟩ := ht.closure_postOrder roots
  refine ⟨hbegin.sublist.nodup hlists.nodup, ?_, ?_, ?_⟩
  · intro id hid
    exact ((hlists.mem_iff id).mp (hbegin.subset hid)).symm
  · intro before id after horder d hd
    obtain ⟨rest, hrest⟩ := hbegin
    rw [← hrest, horder, List.append_assoc, List.cons_append] at hlists
    exact hlists.mem_before hd
  · intro hcost id hreached hregistered
    rw [hwhole (ht.cutOff_eq_false hcost), hlists.mem_iff]
    exact ⟨hreached, hregistered⟩

/-- A module of the second of three layers, twice, one of the first layer, and one that is not
registered. -/
def mixedRoots : List UInt32 := [32, 1, 99, 32]

/-- A search from the mixed roots stays within the limit. -/
theorem layered_searchCost_le : layered.searchCost mixedRoots ≤ 2048 := by
  obtain ⟨-, -, hcut, -⟩ := layered_wellFormed.registered.closure_postOrder mixedRoots
  have hend : ¬ (layered.closure mixedRoots).cutOff = true := by decide +kernel
  exact Nat.le_of_not_lt (mt hcut.mpr hend)

/-- A search from the whole top layer does not. -/
theorem layered_searchCost_gt : 2048 < layered.searchCost topLayer := by
  obtain ⟨-, -, hcut, -⟩ := layered_wellFormed.registered.closure_postOrder topLayer
  exact hcut.mp layered_cutOff

/-- The closure of the highest layer is cut off and still lists no module twice. That of the mixed
roots lists the whole first layer. -/
theorem layered_dependency_closed : layered.Registered ∧ (layered.closure topLayer).cutOff = true ∧
    (layered.closure topLayer).order.Nodup ∧ layered.searchCost mixedRoots ≤ 2048 ∧
    ∀ k < 32, UInt32.ofNat k ∈ (layered.closure mixedRoots).order := by
  have hreg := layered_wellFormed.registered
  refine ⟨hreg, layered_cutOff, (closure_dependency_closed hreg topLayer).1, layered_searchCost_le,
    ?_⟩
  intro k hk
  have hid : (UInt32.ofNat k).toNat = k := UInt32.toNat_ofNat_of_lt' (by rw [UInt32.size]; omega)
  apply (closure_dependency_closed hreg mixedRoots).2.2.2 layered_searchCost_le
  · refine ⟨32, by decide, .single (layered_dependsOn.mpr ⟨by decide, ?_⟩)⟩
    rw [hid, show (32 : UInt32).toNat = 32 from rfl]
    omega
  · rw [get?, hid, layered_modules_eq_some.mpr ⟨by omega, rfl⟩]
    rfl

/-- **The walk is the search.** The closure is the beginning of the list that the recursive search
makes. It is the whole list if the search takes at most 2048 steps; if it takes more, and only then,
there is a warning. -/
theorem closure_follows_search (ht : t.Registered) (roots : List UInt32) :
    (t.closure roots).order <+: ht.postOrder roots ∧
      (t.searchCost roots ≤ 2048 → (t.closure roots).order = ht.postOrder roots) ∧
      ((t.closure roots).events = [.closureCutOff 2048 (t.closure roots).order.length] ↔
        2048 < t.searchCost roots) ∧
      ((t.closure roots).events = [] ↔ t.searchCost roots ≤ 2048) := by
  obtain ⟨-, hbegin, hcut, hwhole⟩ := ht.closure_postOrder roots
  refine ⟨hbegin, fun hcost => hwhole (ht.cutOff_eq_false hcost), ?_, ?_⟩
  · refine Iff.trans ?_ hcut
    rw [Closure.events]
    split <;> simp [*, stepLimit_eq]
  · refine Iff.trans ?_ ((not_congr hcut).trans Nat.not_lt)
    rw [Closure.events]
    split <;> simp [*]

/-- Within the limit the closure is the search, and nothing is noted. Beyond it the closure is a
beginning of the search, and that is noted with its length. -/
theorem layered_follows_search :
    ∃ hreg : layered.Registered,
    (layered.closure mixedRoots).order = hreg.postOrder mixedRoots ∧
    (layered.closure mixedRoots).events = [] ∧
      (layered.closure topLayer).order <+: hreg.postOrder topLayer ∧
      (layered.closure topLayer).events =
        [.closureCutOff 2048 (layered.closure topLayer).order.length] := by
  have hreg := layered_wellFormed.registered
  obtain ⟨-, hwhole, -, hquiet⟩ := closure_follows_search hreg mixedRoots
  obtain ⟨hbegin, -, hwarned, -⟩ := closure_follows_search hreg topLayer
  exact ⟨hreg, hwhole layered_searchCost_le, hquiet.mpr layered_searchCost_le, hbegin,
    hwarned.mpr layered_searchCost_gt⟩

end ModuleTable

end ShaderPack
