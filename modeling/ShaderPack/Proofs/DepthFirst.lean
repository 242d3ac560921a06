import ShaderPack.Modules.Closure
import ShaderPack.Proofs.Tables
import Mathlib.Algebra.Order.BigOperators.Group.List
import Mathlib.Algebra.Order.Ring.Nat
import Mathlib.Logic.Relation

/-!
# The walk is a depth-first search

`Visits t roots found out steps` is depth-first search written as a relation: from the modules in
`found`, looking at `roots` one after another finds the modules in `out`, latest first, and takes
`steps` steps of a stack. A module that is listed or not registered is passed over; any other is
listed behind everything it depends on.

* `exists_visits`: in a well-formed table there is such a search for all roots.
* `walk_of_visits`: the walk with an explicit stack follows it, step by step.
* `closure_of_walkCost_le`: if the walk has the steps it needs (`walkCost`), the closure has exactly
  the modules that are reached, each once and behind everything it depends on.
-/

namespace ShaderPack

namespace ModuleTable

variable {t : ModuleTable}

/-- Module `x` has module `y` among its dependencies. -/
def DependsOn (t : ModuleTable) (x y : UInt32) : Prop := ∃ m, t.get? x = some m ∧ y ∈ m.deps

/-- `id` is one of `roots`, or one of them depends on it, directly or through others. -/
def ReachedFrom (t : ModuleTable) (roots : List UInt32) (id : UInt32) : Prop :=
  ∃ r ∈ roots, Relation.ReflTransGen t.DependsOn r id

/-- Each module in a list is listed behind everything it depends on; the latest module stands
first. -/
def DependenciesFirst (t : ModuleTable) (found : List UInt32) : Prop :=
  ∀ id before, id :: before <:+ found → ∀ d, t.DependsOn id d → d ∈ before

/-- The steps that a walk takes for a module apart from looking at it: one for each dependency, and
one to list it. -/
def visitCost (t : ModuleTable) (id : UInt32) : Nat :=
  1 + ((t.get? id).elim 0 fun m => m.deps.length)

open Classical in
/-- The steps of a walk from `roots`: one for each root, and for each module that is reached one for
each of its dependencies and one to list it. -/
noncomputable def walkCost (t : ModuleTable) (roots : List UInt32) : Nat :=
  roots.length + ((t.modules.toList.filter fun m => t.ReachedFrom roots m.id).map
    fun m => 1 + m.deps.length).sum

/-- Depth-first search from `roots`, with the modules of `found` listed before. -/
inductive Visits (t : ModuleTable) :
    (roots found out : List UInt32) → (steps : Nat) → Prop
  /-- There is nothing left to look at. -/
  | done (found : List UInt32) : Visits t [] found found 0
  /-- A listed module is passed over. -/
  | listed {id : UInt32} {rest found out : List UInt32} {n : Nat} (h : id ∈ found)
      (hrest : Visits t rest found out n) : Visits t (id :: rest) found out (n + 1)
  /-- A module that is not registered is passed over. -/
  | unregistered {id : UInt32} {rest found out : List UInt32} {n : Nat} (h : t.get? id = none)
      (hrest : Visits t rest found out n) : Visits t (id :: rest) found out (n + 1)
  /-- Any other module is listed after the search from its dependencies. -/
  | entered {id : UInt32} {m : Module} {rest found mid out : List UInt32} {k n : Nat}
      (h : id ∉ found) (hm : t.get? id = some m) (hdeps : Visits t m.deps found mid k)
      (hrest : Visits t rest (id :: mid) out n) : Visits t (id :: rest) found out (k + n + 2)

/-! ### What a search finds -/

/-- In a well-formed table, a module depends on modules with smaller ids only. -/
theorem DependsOn.lt (ht : t.WellFormed) {x y : UInt32} (h : t.DependsOn x y) :
    y.toNat < x.toNat := by
  obtain ⟨m, hm, hy⟩ := h
  exact ht.dep_lt hm hy

/-- So ids do not grow along dependencies. -/
theorem le_of_reflTransGen (ht : t.WellFormed) {x y : UInt32}
    (h : Relation.ReflTransGen t.DependsOn x y) : y.toNat ≤ x.toNat := by
  induction h with
  | refl => exact Nat.le_refl _
  | tail _ hstep ih =>
      have := hstep.lt ht
      omega

/-- Whatever a registered module reaches is registered. -/
theorem lt_count_of_reachedFrom (ht : t.WellFormed) {roots : List UInt32}
    (hroots : ∀ r ∈ roots, r.toNat < t.count) {id : UInt32} (h : t.ReachedFrom roots id) :
    id.toNat < t.count := by
  obtain ⟨r, hr, hreach⟩ := h
  exact Nat.lt_of_le_of_lt (le_of_reflTransGen ht hreach) (hroots r hr)

/-- What the dependencies of a root reach, the root reaches. -/
theorem ReachedFrom.of_deps {id x : UInt32} {m : Module} {rest : List UInt32}
    (hm : t.get? id = some m) (h : t.ReachedFrom m.deps x) : t.ReachedFrom (id :: rest) x := by
  obtain ⟨d, hd, hreach⟩ := h
  exact ⟨id, List.mem_cons_self, .head ⟨m, hm, hd⟩ hreach⟩

/-- More roots reach at least as much. -/
theorem ReachedFrom.of_rest {id x : UInt32} {rest : List UInt32} (h : t.ReachedFrom rest x) :
    t.ReachedFrom (id :: rest) x := by
  obtain ⟨r, hr, hreach⟩ := h
  exact ⟨r, List.mem_cons_of_mem _ hr, hreach⟩

/-- A registered module costs one step for each dependency and one to list it. -/
theorem visitCost_eq {id : UInt32} {m : Module} (hm : t.get? id = some m) :
    t.visitCost id = 1 + m.deps.length := by
  rw [visitCost, hm]
  rfl

namespace Visits

variable {roots found out : List UInt32} {steps : Nat}

/-- The search adds modules in front, and its steps are those for the roots and for these
modules. -/
theorem exists_new (h : Visits t roots found out steps) :
    ∃ new, out = new ++ found ∧ steps = roots.length + (new.map t.visitCost).sum := by
  induction h with
  | done found => exact ⟨[], rfl, rfl⟩
  | listed _ _ ih =>
      obtain ⟨new, hout, hsteps⟩ := ih
      exact ⟨new, hout, by rw [List.length_cons]; omega⟩
  | unregistered _ _ ih =>
      obtain ⟨new, hout, hsteps⟩ := ih
      exact ⟨new, hout, by rw [List.length_cons]; omega⟩
  | @entered id m rest found mid out k n _ hm _ _ ihdeps ihrest =>
      obtain ⟨new₁, hmid, hk⟩ := ihdeps
      obtain ⟨new₂, hout, hn⟩ := ihrest
      refine ⟨new₂ ++ id :: new₁, ?_, ?_⟩
      · rw [hout, hmid, List.append_assoc, List.cons_append]
      · rw [List.map_append, List.sum_append, List.map_cons, List.sum_cons, List.length_cons,
          visitCost_eq hm]
        omega

/-- The steps of a search that starts with nothing listed. -/
theorem steps_eq (h : Visits t roots [] out steps) :
    steps = roots.length + (out.map t.visitCost).sum := by
  obtain ⟨new, hout, hsteps⟩ := h.exists_new
  rw [List.append_nil] at hout
  rw [hsteps, hout]

/-- A search keeps everything that was listed before. -/
theorem found_subset (h : Visits t roots found out steps) : found ⊆ out := by
  obtain ⟨new, rfl, -⟩ := h.exists_new
  exact List.subset_append_right _ _

/-- Only modules that the roots reach are added, and they are registered. -/
theorem mem_out (h : Visits t roots found out steps) {x : UInt32} (hx : x ∈ out) :
    x ∈ found ∨ t.ReachedFrom roots x ∧ x.toNat < t.count := by
  induction h with
  | done found => exact .inl hx
  | listed _ _ ih => exact (ih hx).imp_right fun h => ⟨h.1.of_rest, h.2⟩
  | unregistered _ _ ih => exact (ih hx).imp_right fun h => ⟨h.1.of_rest, h.2⟩
  | entered _ hm _ _ ihdeps ihrest =>
      rcases ihrest hx with hx | hx
      · rcases List.mem_cons.mp hx with rfl | hx
        · exact .inr ⟨⟨_, List.mem_cons_self, .refl⟩, lt_count_of_get? hm⟩
        · exact (ihdeps hx).imp_right fun h => ⟨h.1.of_deps hm, h.2⟩
      · exact .inr ⟨hx.1.of_rest, hx.2⟩

/-- A module that is being entered is not found by the search from its dependencies. -/
theorem not_mem_of_deps (ht : t.WellFormed) {id : UInt32} {m : Module} (hm : t.get? id = some m)
    (hid : id ∉ found) (h : Visits t m.deps found out steps) : id ∉ out := by
  intro hmem
  rcases h.mem_out hmem with hfound | ⟨⟨d, hd, hreach⟩, -⟩
  · exact hid hfound
  · have := ht.dep_lt hm hd
    have := le_of_reflTransGen ht hreach
    omega

/-- A search lists nothing twice. -/
theorem nodup (ht : t.WellFormed) (h : Visits t roots found out steps) (hfound : found.Nodup) :
    out.Nodup := by
  induction h with
  | done found => exact hfound
  | listed _ _ ih => exact ih hfound
  | unregistered _ _ ih => exact ih hfound
  | entered hid hm hdeps _ ihdeps ihrest =>
      exact ihrest (List.nodup_cons.mpr ⟨hdeps.not_mem_of_deps ht hm hid, ihdeps hfound⟩)

/-- Every registered root is found. -/
theorem mem_of_mem_roots (h : Visits t roots found out steps) {r : UInt32} (hr : r ∈ roots)
    (hreg : r.toNat < t.count) : r ∈ out := by
  induction h with
  | done found => cases hr
  | listed hlisted hrest ih =>
      rcases List.mem_cons.mp hr with rfl | hr
      · exact hrest.found_subset hlisted
      · exact ih hr
  | unregistered hnone _ ih =>
      rcases List.mem_cons.mp hr with rfl | hr
      · obtain ⟨m, hm⟩ := exists_get?_of_lt hreg
        rw [hm] at hnone
        cases hnone
      · exact ih hr
  | entered _ _ _ hrest _ ih =>
      rcases List.mem_cons.mp hr with rfl | hr
      · exact hrest.found_subset List.mem_cons_self
      · exact ih hr

/-- Every module is listed behind what it depends on. -/
theorem dependenciesFirst (ht : t.WellFormed) (h : Visits t roots found out steps)
    (hfound : t.DependenciesFirst found) : t.DependenciesFirst out := by
  induction h with
  | done found => exact hfound
  | listed _ _ ih => exact ih hfound
  | unregistered _ _ ih => exact ih hfound
  | @entered id m rest found mid out k n _ hm hdeps _ ihdeps ihrest =>
      apply ihrest
      intro x before hx d hd
      rcases List.suffix_cons_iff.mp hx with hx | hx
      · -- the module just listed: its dependencies are all registered, so the search found them
        obtain ⟨rfl, rfl⟩ := List.cons.inj hx
        obtain ⟨m', hm', hd⟩ := hd
        rw [hm] at hm'
        cases hm'
        exact hdeps.mem_of_mem_roots hd (Nat.lt_trans (ht.dep_lt hm hd) (lt_count_of_get? hm))
      · exact ihdeps hfound x before hx d hd

end Visits

theorem dependenciesFirst_nil : t.DependenciesFirst [] := by
  intro id before hsuffix
  simp at hsuffix

/-- A list that has dependencies first has everything that its members reach. -/
theorem DependenciesFirst.mem_of_reflTransGen {found : List UInt32} (h : t.DependenciesFirst found)
    {x y : UInt32} (hx : x ∈ found) (hxy : Relation.ReflTransGen t.DependsOn x y) : y ∈ found := by
  induction hxy with
  | refl => exact hx
  | tail _ hstep ih =>
      obtain ⟨later, before, rfl⟩ := List.append_of_mem ih
      have := h _ before ⟨later, rfl⟩ _ hstep
      exact List.mem_append_right _ (List.mem_cons_of_mem _ this)

/-- A search lists the registered modules that are reached. -/
theorem Visits.mem_iff (ht : t.WellFormed) {roots out : List UInt32} {steps : Nat}
    (h : Visits t roots [] out steps) (id : UInt32) :
    id ∈ out ↔ t.ReachedFrom roots id ∧ id.toNat < t.count := by
  constructor
  · intro hid
    exact (h.mem_out hid).resolve_left List.not_mem_nil
  · rintro ⟨⟨r, hr, hreach⟩, hid⟩
    have hfirst : t.DependenciesFirst out := h.dependenciesFirst ht dependenciesFirst_nil
    -- a root that is not registered reaches only itself
    have hreg : r.toNat < t.count := by
      rcases Relation.ReflTransGen.cases_head hreach with rfl | ⟨d, ⟨m, hm, -⟩, -⟩
      · exact hid
      · exact lt_count_of_get? hm
    exact hfirst.mem_of_reflTransGen (h.mem_of_mem_roots hr hreg) hreach

/-! ### Searches and walks -/

/-- There is a search from all roots: the dependencies of a module have smaller ids. -/
theorem exists_visits (ht : t.WellFormed) (roots found : List UInt32) :
    ∃ out steps, Visits t roots found out steps := by
  suffices h : ∀ n, ∀ roots found : List UInt32, (∀ r ∈ roots, r.toNat < t.count → r.toNat < n) →
      ∃ out steps, Visits t roots found out steps from
    h t.count roots found fun _ _ hr => hr
  intro n
  induction n using Nat.strongRecOn with
  | ind n ihn =>
      intro roots
      induction roots with
      | nil => exact fun found _ => ⟨found, 0, .done found⟩
      | cons id rest ihrest =>
          intro found hlt
          have hlt_rest : ∀ r ∈ rest, r.toNat < t.count → r.toNat < n :=
            fun r hr => hlt r (List.mem_cons_of_mem _ hr)
          by_cases hid : id ∈ found
          · obtain ⟨out, steps, h⟩ := ihrest found hlt_rest
            exact ⟨out, _, .listed hid h⟩
          · cases hm : t.get? id with
            | none =>
                obtain ⟨out, steps, h⟩ := ihrest found hlt_rest
                exact ⟨out, _, .unregistered hm h⟩
            | some m =>
                have hidn : id.toNat < n := hlt id List.mem_cons_self (lt_count_of_get? hm)
                obtain ⟨mid, k, hmid⟩ := ihn id.toNat hidn m.deps found
                  fun d hd _ => ht.dep_lt hm hd
                obtain ⟨out, steps, h⟩ := ihrest (id :: mid) hlt_rest
                exact ⟨out, _, .entered hid hm hmid h⟩

/-- With enough steps, the walk does what the search does and goes on with its stack. Modules on the
path have greater ids than the roots, so the walk never meets them. -/
theorem walk_of_visits (ht : t.WellFormed) {roots found out : List UInt32} {steps : Nat}
    (h : Visits t roots found out steps) (fuel : Nat) (stack : List Visit) (path : List UInt32)
    (hpath : ∀ p ∈ path, ∀ r ∈ roots, r.toNat < p.toNat) :
    t.walk (steps + fuel) (roots.map .enter ++ stack) path found = t.walk fuel stack path out := by
  induction h generalizing fuel stack path with
  | done found => rw [Nat.zero_add, List.map_nil, List.nil_append]
  | @listed id rest found out n hid _ ih =>
      have hrest : ∀ p ∈ path, ∀ r ∈ rest, r.toNat < p.toNat :=
        fun p hp r hr => hpath p hp r (List.mem_cons_of_mem _ hr)
      rw [List.map_cons, List.cons_append, Nat.add_right_comm, walk, if_pos (by simp [hid]),
        ih fuel stack path hrest]
  | @unregistered id rest found out n hnone _ ih =>
      have hrest : ∀ p ∈ path, ∀ r ∈ rest, r.toNat < p.toNat :=
        fun p hp r hr => hpath p hp r (List.mem_cons_of_mem _ hr)
      rw [List.map_cons, List.cons_append, Nat.add_right_comm, walk, hnone]
      simp only [ite_self]
      rw [ih fuel stack path hrest]
  | @entered id m rest found mid out k n hid hm hdeps _ ihdeps ihrest =>
      have hrest : ∀ p ∈ path, ∀ r ∈ rest, r.toNat < p.toNat :=
        fun p hp r hr => hpath p hp r (List.mem_cons_of_mem _ hr)
      have hidpath : id ∉ path := fun hmem =>
        Nat.lt_irrefl _ (hpath id hmem id List.mem_cons_self)
      have hdepspath : ∀ p ∈ id :: path, ∀ d ∈ m.deps, d.toNat < p.toNat := by
        intro p hp d hd
        have hlt := ht.dep_lt hm hd
        rcases List.mem_cons.mp hp with rfl | hp
        · exact hlt
        · exact Nat.lt_trans hlt (hpath p hp id List.mem_cons_self)
      have hidmid : id ∉ mid := hdeps.not_mem_of_deps ht hm hid
      have hfuel : k + n + 2 + fuel = (k + (n + fuel + 1)) + 1 := by omega
      rw [List.map_cons, List.cons_append, hfuel, walk, if_neg (by simp [hid, hidpath]), hm]
      simp only
      rw [ihdeps (n + fuel + 1) _ (id :: path) hdepspath, walk, List.erase_cons_head,
        if_neg (by simp [hidmid]), ihrest fuel stack path hrest]

/-- With enough steps, the walk comes to its end and has what the search finds. -/
theorem Visits.walk_eq (ht : t.WellFormed) {roots out : List UInt32} {steps : Nat}
    (h : Visits t roots [] out steps) (fuel : Nat) :
    t.walk (steps + fuel) (roots.map .enter) [] [] = ⟨out.reverse, false⟩ := by
  have hwalk := walk_of_visits ht h fuel [] [] fun p hp => absurd hp List.not_mem_nil
  rwa [List.append_nil, walk] at hwalk

/-! ### The closure -/

/-- A list of all modules that are reached, each once, tells the cost of the walk. -/
theorem walkCost_eq (ht : t.WellFormed) {roots ids : List UInt32} (hnodup : ids.Nodup)
    (hmem : ∀ id, id ∈ ids ↔ t.ReachedFrom roots id ∧ id.toNat < t.count) :
    t.walkCost roots = roots.length + (ids.map t.visitCost).sum := by
  classical
  have hmodules : t.modules.toList.Nodup := ht.nodup.of_map
  have hperm : (ids.filterMap t.get?).Perm
      (t.modules.toList.filter fun m => t.ReachedFrom roots m.id) := by
    rw [List.perm_ext_iff_of_nodup ?_ (hmodules.filter _)]
    · intro m
      rw [List.mem_filterMap, List.mem_filter, Array.mem_toList_iff, decide_eq_true_eq]
      constructor
      · rintro ⟨id, hid, hget⟩
        rw [ht.id_of_get? hget]
        exact ⟨mem_of_get? hget, ((hmem id).mp hid).1⟩
      · rintro ⟨hm, hreach⟩
        have hget := ht.get?_of_mem hm
        exact ⟨m.id, (hmem m.id).mpr ⟨hreach, lt_count_of_get? hget⟩, hget⟩
    · refine hnodup.filterMap fun x y m hx hy => ?_
      rw [← ht.id_of_get? hx, ← ht.id_of_get? hy]
  have hcosts : ids.map t.visitCost = (ids.filterMap t.get?).map fun m => 1 + m.deps.length := by
    have hreg : ∀ id ∈ ids, id.toNat < t.count := fun id hid => ((hmem id).mp hid).2
    clear hmem hnodup hperm
    induction ids with
    | nil => rfl
    | cons id ids ih =>
        obtain ⟨m, hm⟩ := exists_get?_of_lt (hreg id List.mem_cons_self)
        rw [List.map_cons, List.filterMap_cons_some hm, List.map_cons, visitCost_eq hm,
          ih fun x hx => hreg x (List.mem_cons_of_mem _ hx)]
  rw [walkCost, hcosts, (hperm.map _).sum_eq]

/-- The cost of a walk is at most the cost of the roots and of the whole table. -/
theorem walkCost_le (t : ModuleTable) (roots : List UInt32) :
    t.walkCost roots ≤ roots.length + (t.modules.toList.map fun m => 1 + m.deps.length).sum := by
  classical
  rw [walkCost]
  have := (List.filter_sublist (l := t.modules.toList)
    (p := fun m => t.ReachedFrom roots m.id)).map fun m => 1 + m.deps.length
  exact Nat.add_le_add_left (this.sum_le_sum fun _ _ => Nat.zero_le _) _

/-- A closure that has the steps it needs is complete: it has exactly the modules that are reached
from the roots, each once, and each behind everything it depends on. -/
theorem closure_of_walkCost_le (ht : t.WellFormed) {roots : List UInt32}
    (hroots : ∀ r ∈ roots, r.toNat < t.count) (hcost : t.walkCost roots ≤ stepLimit) :
    (t.closure roots).order.Nodup ∧ (∀ id, id ∈ (t.closure roots).order ↔ t.ReachedFrom roots id) ∧
      t.DependenciesFirst (t.closure roots).order.reverse := by
  obtain ⟨out, steps, h⟩ := exists_visits ht roots []
  have hnodup : out.Nodup := h.nodup ht List.nodup_nil
  have hfirst : t.DependenciesFirst out := h.dependenciesFirst ht dependenciesFirst_nil
  have hmem := h.mem_iff ht
  have hsteps : steps = t.walkCost roots := by rw [h.steps_eq, walkCost_eq ht hnodup hmem]
  have hclosure : t.closure roots = ⟨out.reverse, false⟩ := by
    obtain ⟨fuel, hfuel⟩ := Nat.exists_eq_add_of_le (hsteps.trans_le hcost)
    rw [closure, hfuel, h.walk_eq ht]
  rw [hclosure]
  refine ⟨List.nodup_reverse.mpr hnodup, fun id => ?_, by simpa using hfirst⟩
  rw [List.mem_reverse, hmem]
  exact ⟨fun h => h.1, fun h => ⟨h, lt_count_of_reachedFrom ht hroots h⟩⟩

end ModuleTable

end ShaderPack
