import ShaderPack.Proofs.DepthFirst
import Mathlib.Algebra.Group.Action.Defs
import Mathlib.Data.List.Induction

/-!
# How far the walk gets

The walk for a closure has `stepLimit` steps. It needs one for each root and, for each module that
is reached, one to list it and one for each of its dependencies. These are all the steps there are:
with fewer the walk is cut off (`walk_cutOff_of_visits`), and what it has found is the beginning of
what it would have found (`walk_isPrefix`).

So it is the count of modules and dependencies that decides (`closure_within_limit`). The longest
chain and the most dependencies of one module do not (`layered_incomplete`).

Tables are those that registering makes (`Registered`). Ids have 32 bits, so a module beyond the
first `2 ^ 32` has the id of an earlier one and is never seen; what is seen is a well-formed table
(`Registered.wellFormed_visible`).
-/

namespace ShaderPack

namespace ModuleTable

variable {t t' : ModuleTable}

/-! ### Registered tables -/

/-- The table was made from the empty one by registering modules. -/
inductive Registered : ModuleTable → Prop
  /-- The table without modules. -/
  | empty : Registered empty
  /-- The table after one more module. -/
  | register {t t' : ModuleTable} {kind : Kind} {name : String} {nameId blob offset id : UInt32}
      {deps : List UInt32} (h : Registered t)
      (hregister : t.register kind name nameId blob offset deps = .ok (t', id)) : Registered t'

/-- The modules that have an id of their own. -/
def visible (t : ModuleTable) : ModuleTable := ⟨(t.modules.toList.take (2 ^ 32)).toArray⟩

/-- In a table with at most `2 ^ 32` modules, an id can name every module. -/
theorem visible_of_le (h : t.count ≤ 2 ^ 32) : t.visible = t := by
  rw [visible, List.take_of_length_le h, Array.toArray_toList]

/-- Modules that no id can name are never found. -/
theorem get?_visible (t : ModuleTable) (id : UInt32) : t.visible.get? id = t.get? id := by
  rw [visible, get?, get?, List.getElem?_toArray, List.getElem?_take_of_lt id.toNat_lt,
    Array.getElem?_toList]

/-- The modules that an id can name make a well-formed table, even if there are more modules. -/
theorem Registered.wellFormed_visible (h : t.Registered) : t.visible.WellFormed := by
  induction h with
  | empty => exact wellFormed_empty
  | @register t t' kind name nameId blob offset id deps _ hregister ih =>
      obtain ⟨hkey, rfl, hdeps, rfl⟩ := register_eq_ok.mp hregister
      by_cases hcount : t.count < 2 ^ 32
      · rw [visible_of_le hcount.le] at ih
        rw [visible_of_le (by rw [count, Array.size_push]; exact hcount)]
        exact ih.push (UInt32.toNat_ofNat_of_lt' hcount) hkey hdeps
      · -- the new module has no id of its own
        rw [visible, Array.toList_push, List.take_append_of_le_length (Nat.le_of_not_lt hcount)]
        exact ih

/-- What a well-formed table was before its last module came in. -/
theorem WellFormed.of_push {m : Module} (h : WellFormed ⟨t.modules.push m⟩) :
    t.WellFormed ∧ m.id.toNat = t.count ∧ m.key ∉ t.keys := by
  have hkeys : keys ⟨t.modules.push m⟩ = t.keys ++ [m.key] := by simp [keys]
  have hnodup := h.nodup
  rw [hkeys, List.nodup_append] at hnodup
  refine ⟨⟨?_, ?_, hnodup.1⟩, ?_, ?_⟩
  · intro i x hx
    have hi := (Array.getElem?_eq_some_iff.mp hx).1
    exact h.id_eq i x (by rw [Array.getElem?_push_lt hi, ← hx, Array.getElem?_eq_getElem hi])
  · intro x hx
    exact h.deps_lt x (Array.mem_push.mpr (.inl hx))
  · exact h.id_eq t.count m Array.getElem?_push_size
  · intro hmem
    exact hnodup.2.2 _ hmem _ (List.mem_singleton.mpr rfl) rfl

/-- A well-formed table can be registered module by module. -/
theorem WellFormed.registered (ht : t.WellFormed) : t.Registered := by
  suffices h : ∀ modules : List Module, WellFormed ⟨modules.toArray⟩ →
      Registered ⟨modules.toArray⟩ from
    h t.modules.toList ht
  intro modules
  induction modules using List.reverseRecOn with
  | nil => exact fun _ => .empty
  | append_singleton modules m ih =>
      intro hall
      rw [← List.push_toArray] at hall ⊢
      obtain ⟨hfirst, hid, hkey⟩ := WellFormed.of_push (t := ⟨modules.toArray⟩) hall
      have hdeps := hall.deps_lt m (Array.mem_push_self)
      have hid' : m.id = UInt32.ofNat (count ⟨modules.toArray⟩) := by rw [← hid, UInt32.ofNat_toNat]
      exact (ih hfirst).register (register_eq_ok.mpr ⟨hkey, hid', hdeps, rfl⟩)

/-- A walk looks at a table through its ids. -/
theorem walk_visible (t : ModuleTable) (fuel : Nat) (stack : List Visit)
    (path found : List UInt32) :
    t.visible.walk fuel stack path found = t.walk fuel stack path found := by
  fun_induction walk t fuel stack path found with
  | case1 => rw [walk]
  | case2 => rw [walk]
  | case3 fuel id stack path found h ih => rw [walk, if_pos h, ih]
  | case4 fuel id stack path found h hnone ih =>
      rw [walk, if_neg h, get?_visible, hnone]
      exact ih
  | case5 fuel id stack path found h m hm ih =>
      rw [walk, if_neg h, get?_visible, hm]
      exact ih
  | case6 fuel id stack path found ih => rw [walk, ih]

/-! ### Walks without enough steps -/

/-- What was found stays found. -/
theorem walk_found (t : ModuleTable) (fuel : Nat) (stack : List Visit) (path found : List UInt32) :
    found.reverse <+: (t.walk fuel stack path found).order := by
  fun_induction walk t fuel stack path found with
  | case1 => exact List.prefix_rfl
  | case2 => exact List.prefix_rfl
  | case3 fuel id stack path found h ih => exact ih
  | case4 fuel id stack path found h hnone ih => exact ih
  | case5 fuel id stack path found h m hm ih => exact ih
  | case6 fuel id stack path found ih =>
      apply List.IsPrefix.trans _ ih
      split
      · exact List.prefix_rfl
      · rw [List.reverse_cons]
        exact List.prefix_append _ _

/-- With fewer steps, a walk finds the beginning of what it finds with more. -/
theorem walk_isPrefix (t : ModuleTable) (fuel more : Nat) (stack : List Visit)
    (path found : List UInt32) :
    (t.walk fuel stack path found).order <+: (t.walk (fuel + more) stack path found).order := by
  fun_induction walk t fuel stack path found with
  | case1 => exact walk_found t _ _ _ _
  | case2 => exact walk_found t _ _ _ _
  | case3 fuel id stack path found h ih =>
      rw [Nat.succ_add, walk, if_pos h]
      exact ih
  | case4 fuel id stack path found h hnone ih =>
      rw [Nat.succ_add, walk, if_neg h, hnone]
      exact ih
  | case5 fuel id stack path found h m hm ih =>
      rw [Nat.succ_add, walk, if_neg h, hm]
      exact ih
  | case6 fuel id stack path found ih =>
      rw [Nat.succ_add, walk]
      exact ih

/-- A walk that comes to its end has the step for one more thing at the bottom of its stack, given
one step more. -/
theorem walk_append (t : ModuleTable) (last : UInt32) (more : Nat) (fuel : Nat) (stack : List Visit)
    (path found : List UInt32) (h : (t.walk fuel stack path found).cutOff = false) :
    (t.walk (fuel + more + 1) (stack ++ [.leave last]) path found).cutOff = false := by
  fun_induction walk t fuel stack path found with
  | case1 => simp only [List.nil_append, walk]
  | case2 => cases h
  | case3 fuel id stack path found hseen ih =>
      rw [Nat.succ_add, List.cons_append, walk, if_pos hseen]
      exact ih h
  | case4 fuel id stack path found hseen hnone ih =>
      rw [Nat.succ_add, List.cons_append, walk, if_neg hseen, hnone]
      exact ih h
  | case5 fuel id stack path found hseen m hm ih =>
      rw [Nat.succ_add, List.cons_append, walk, if_neg hseen, hm]
      have hend := ih h
      rwa [List.append_assoc] at hend
  | case6 fuel id stack path found ih =>
      rw [Nat.succ_add, List.cons_append, walk]
      exact ih h

/-- A walk with fewer steps than the search takes is cut off. Otherwise, the search and one thing
more could be done with the steps of the search. -/
theorem walk_cutOff_of_visits (ht : t.WellFormed) {roots found out : List UInt32} {steps fuel : Nat}
    (h : Visits t roots found out steps) (hfuel : fuel < steps) :
    (t.walk fuel (roots.map .enter) [] found).cutOff = true := by
  obtain ⟨more, rfl⟩ := Nat.exists_eq_add_of_lt hfuel
  by_contra hend
  have hlast := t.walk_append 0 more fuel _ [] found (Bool.eq_false_of_not_eq_true hend)
  have hsteps := walk_of_visits ht h 0 [.leave 0] [] fun p hp => absurd hp List.not_mem_nil
  rw [Nat.add_zero] at hsteps
  rw [hsteps, walk] at hlast
  cases hlast

/-! ### The closure -/

/-- Dependencies between modules do not see those that no id can name. -/
theorem dependsOn_visible (t : ModuleTable) : t.visible.DependsOn = t.DependsOn := by
  funext x y
  simp only [DependsOn, get?_visible]

/-- Nor does what is reached from roots. -/
theorem reachedFrom_visible (t : ModuleTable) : t.visible.ReachedFrom = t.ReachedFrom := by
  funext roots id
  rw [ReachedFrom, ReachedFrom, dependsOn_visible]

/-- Nor does the cost of a visit. -/
theorem visitCost_visible (t : ModuleTable) : t.visible.visitCost = t.visitCost := by
  funext id
  rw [visitCost, visitCost, get?_visible]

/-- `ids` are the registered modules that `roots` reach, each once and behind everything it depends
on. -/
structure Lists (t : ModuleTable) (roots ids : List UInt32) : Prop where
  nodup : ids.Nodup
  mem_iff : ∀ id, id ∈ ids ↔ t.ReachedFrom roots id ∧ (t.get? id).isSome
  dependenciesFirst : t.DependenciesFirst ids.reverse

/-- A listing for the visible modules is one for the whole table. -/
theorem lists_of_visible {roots ids : List UInt32} (h : t.visible.Lists roots ids) :
    t.Lists roots ids := by
  obtain ⟨hnodup, hmem, hfirst⟩ := h
  refine ⟨hnodup, ?_, ?_⟩
  · intro id
    rw [hmem, reachedFrom_visible, get?_visible]
  · rw [DependenciesFirst, dependsOn_visible] at hfirst
    exact hfirst

section search

variable {roots out : List UInt32} {steps : Nat}

/-- What a search through a well-formed table finds, from the first found to the last, lists what
its roots reach. -/
theorem Visits.lists (ht : t.WellFormed) (h : Visits t roots [] out steps) :
    t.Lists roots out.reverse := by
  refine ⟨List.nodup_reverse.mpr (h.nodup ht List.nodup_nil), ?_, ?_⟩
  · intro id
    rw [List.mem_reverse, h.mem_iff ht, get?, isSome_getElem?]
    rfl
  · rw [List.reverse_reverse]
    exact h.dependenciesFirst ht dependenciesFirst_nil

/-- The closure is the beginning of what a search finds. It is cut off exactly if the search takes
too many steps, and it is all that the search finds if it is not cut off. -/
theorem Visits.closure_spec (ht : t.WellFormed) (h : Visits t roots [] out steps) :
    (t.closure roots).order <+: out.reverse ∧
    ((t.closure roots).cutOff = true ↔ stepLimit < steps) ∧
      ((t.closure roots).cutOff = false → (t.closure roots).order = out.reverse) := by
  rw [closure]
  rcases Nat.lt_or_ge stepLimit steps with hlt | hle
  · have hcut := walk_cutOff_of_visits ht h hlt
    obtain ⟨more, hmore⟩ := Nat.exists_eq_add_of_lt hlt
    have hbegin := t.walk_isPrefix stepLimit (more + 1) (roots.map .enter) [] []
    rw [← Nat.add_assoc, ← hmore, ← Nat.add_zero steps, h.walk_eq ht] at hbegin
    refine ⟨hbegin, ⟨fun _ => hlt, fun _ => hcut⟩, ?_⟩
    rw [hcut]
    exact fun h => absurd h.symm Bool.false_ne_true
  · obtain ⟨fuel, hfuel⟩ := Nat.exists_eq_add_of_le hle
    rw [hfuel, h.walk_eq ht]
    exact ⟨List.prefix_rfl, ⟨fun h => absurd h Bool.false_ne_true, fun h => absurd hle (by omega)⟩,
      fun _ => rfl⟩

end search

/-- In a table that registering makes, a search of what is visible tells about the closure. -/
theorem Registered.exists_visits (ht : t.Registered) (roots : List UInt32) :
    ∃ out, Visits t.visible roots [] out (roots.length + (out.reverse.map t.visitCost).sum) ∧
      t.Lists roots out.reverse ∧ (t.closure roots).order <+: out.reverse ∧
      ((t.closure roots).cutOff = true ↔
        stepLimit < roots.length + (out.reverse.map t.visitCost).sum) ∧
      ((t.closure roots).cutOff = false → (t.closure roots).order = out.reverse) := by
  have hvisible := ht.wellFormed_visible
  obtain ⟨out, steps, h⟩ := ModuleTable.exists_visits hvisible roots []
  have hsteps := h.steps_eq
  have hclosure := h.closure_spec hvisible
  rw [visitCost_visible, ← List.sum_reverse, ← List.map_reverse] at hsteps
  rw [closure, walk_visible, hsteps] at hclosure
  exact ⟨out, hsteps ▸ h, lists_of_visible (h.lists hvisible), hclosure⟩

/-- The closure is a beginning of a listing of what the roots reach. It is cut off exactly if the
steps of a whole search are more than the limit, and otherwise it is the whole listing. -/
theorem Registered.closure_spec (ht : t.Registered) (roots : List UInt32) :
    ∃ ids, t.Lists roots ids ∧ (t.closure roots).order <+: ids ∧
      ((t.closure roots).cutOff = true ↔ stepLimit < roots.length + (ids.map t.visitCost).sum) ∧
      ((t.closure roots).cutOff = false → (t.closure roots).order = ids) := by
  obtain ⟨out, -, hlists, hclosure⟩ := ht.exists_visits roots
  exact ⟨out.reverse, hlists, hclosure⟩

/-- One step before the end of a search, its last root is not listed. So it is missing in a closure
that is cut off, unless another root reaches it. -/
theorem WellFormed.not_mem_closure (ht : t.WellFormed) {front : List UInt32} {last : UInt32}
    {m : Module} (hm : t.get? last = some m) (hlast : ¬ t.ReachedFrom front last)
    (hcut : (t.closure (front ++ [last])).cutOff = true) :
    last ∉ (t.closure (front ++ [last])).order := by
  obtain ⟨mid, k, hfront⟩ := exists_visits ht front []
  obtain ⟨out, n, hdeps⟩ := exists_visits ht m.deps mid
  have hmid : last ∉ mid := fun h => hlast ((hfront.mem_iff ht last).mp h).1
  have hout : last ∉ out := hdeps.not_mem_of_deps ht hm hmid
  have hfirst (fuel : Nat) : t.walk (k + fuel) ((front ++ [last]).map .enter) [] [] =
      t.walk fuel [.enter last] [] mid := by
    rw [List.map_append]
    exact walk_of_visits ht hfront fuel _ [] fun p hp => absurd hp List.not_mem_nil
  have hlt : stepLimit < k + (n + 0 + 2) := by
    by_contra hle
    obtain ⟨fuel, hfuel⟩ := Nat.exists_eq_add_of_le (Nat.le_of_not_lt hle)
    have hend := walk_of_visits ht (.entered hmid hm hdeps (.done _)) fuel [] []
      fun p hp => absurd hp List.not_mem_nil
    rw [List.map_singleton, List.append_nil, walk] at hend
    rw [closure, hfuel, Nat.add_assoc, hfirst, hend] at hcut
    exact Bool.false_ne_true hcut
  have hbefore : t.walk (k + (n + 1)) ((front ++ [last]).map .enter) [] [] =
      ⟨out.reverse, true⟩ := by
    have hpath : ∀ p ∈ [last], ∀ d ∈ m.deps, d.toNat < p.toNat := by
      intro p hp d hd
      rw [List.mem_singleton.mp hp]
      exact ht.dep_lt hm hd
    have hvisits := walk_of_visits ht hdeps 0 [.leave last] [last] hpath
    rw [hfirst, walk, if_neg (by simp [hmid]), hm]
    rw [walk] at hvisits
    exact hvisits
  obtain ⟨more, hmore⟩ := Nat.exists_eq_add_of_le (show stepLimit ≤ k + (n + 1) by omega)
  have hbegin := t.walk_isPrefix stepLimit more ((front ++ [last]).map .enter) [] []
  rw [← hmore, hbefore] at hbegin
  exact fun hmem => hout (List.mem_reverse.mp (hbegin.subset hmem))

/-- If a closure is cut off and no other root reaches the last root, then the last root is
missing. -/
theorem Registered.not_mem_closure (ht : t.Registered) {front : List UInt32} {last : UInt32}
    (hlast : (t.get? last).isSome) (hfront : ¬ t.ReachedFrom front last)
    (hcut : (t.closure (front ++ [last])).cutOff = true) :
    last ∉ (t.closure (front ++ [last])).order := by
  obtain ⟨m, hm⟩ := Option.isSome_iff_exists.mp hlast
  rw [← reachedFrom_visible] at hfront
  rw [← get?_visible] at hm
  rw [closure, ← walk_visible] at hcut ⊢
  exact ht.wellFormed_visible.not_mem_closure hm hfront hcut

/-- Every module has at most `maxImports` dependencies. -/
def Narrow (t : ModuleTable) : Prop := ∀ id m, t.get? id = some m → m.deps.length ≤ maxImports

/-- The steps for the modules of a list, if none has too many dependencies. The first one has no
dependencies. -/
theorem Lists.cost_le {roots ids : List UInt32} (h : t.Lists roots ids) (hnarrow : t.Narrow) :
    (ids.map t.visitCost).sum ≤ ids.length + maxImports * (ids.length - 1) := by
  cases ids with
  | nil => exact Nat.zero_le _
  | cons first rest =>
      have hcost : ∀ id ∈ first :: rest, t.visitCost id ≤ 1 + maxImports := by
        intro id hid
        obtain ⟨m, hm⟩ := Option.isSome_iff_exists.mp ((h.mem_iff id).mp hid).2
        rw [visitCost_eq hm]
        exact Nat.add_le_add_left (hnarrow id m hm) 1
      have hfirst : t.visitCost first = 1 := by
        obtain ⟨m, hm⟩ := Option.isSome_iff_exists.mp ((h.mem_iff first).mp List.mem_cons_self).2
        have hnone : ∀ d ∈ m.deps, d ∈ ([] : List UInt32) := fun d hd =>
          h.dependenciesFirst first [] (by rw [List.reverse_cons]; exact List.suffix_append _ _) d
            ⟨m, hm, hd⟩
        rw [visitCost_eq hm, List.eq_nil_of_subset_nil hnone]
        rfl
      have hrest : (rest.map t.visitCost).sum ≤ rest.length * (1 + maxImports) := by
        have hsum := List.sum_le_card_nsmul (rest.map t.visitCost) (1 + maxImports)
        rw [List.length_map, smul_eq_mul] at hsum
        apply hsum
        intro cost hmem
        obtain ⟨id, hid, rfl⟩ := List.mem_map.mp hmem
        exact hcost id (List.mem_cons_of_mem _ hid)
      rw [maxImports] at *
      rw [List.map_cons, List.sum_cons, hfirst, List.length_cons]
      omega

/-- **What the walk is sized for.** In a table that registering makes, let `ids` be the modules that
`roots` reach, in the order of a depth-first search. The closure is the beginning of this list. It
is the whole list, without a warning, if there are steps for the roots, for the modules and for
their dependencies; with too few steps it is cut off, and misses its last root unless another one
reaches it. With at most 32 roots and at most 32 dependencies for each module, there are enough
steps for 62 modules. -/
theorem closure_within_limit (ht : t.Registered) (roots : List UInt32) :
    ∃ ids, t.Lists roots ids ∧ (t.closure roots).order <+: ids ∧
      ((t.closure roots).cutOff = true ↔ stepLimit < roots.length + (ids.map t.visitCost).sum) ∧
      (roots.length + (ids.map t.visitCost).sum ≤ stepLimit →
        (t.closure roots).order = ids ∧ (t.closure roots).events = []) ∧
      (stepLimit < roots.length + (ids.map t.visitCost).sum →
        ∀ front last, roots = front ++ [last] →
        (t.get? last).isSome → ¬ t.ReachedFrom front last → last ∉ (t.closure roots).order) ∧
      (t.Narrow → roots.length ≤ maxImports → ids.length ≤ 62 →
        (t.closure roots).order = ids ∧ (t.closure roots).events = []) := by
  obtain ⟨ids, hids, hbegin, hcut, hwhole⟩ := ht.closure_spec roots
  have henough (hcost : roots.length + (ids.map t.visitCost).sum ≤ stepLimit) :
      (t.closure roots).order = ids ∧ (t.closure roots).events = [] := by
    have hend : (t.closure roots).cutOff = false := by
      apply Bool.eq_false_of_not_eq_true
      rw [hcut]
      exact Nat.not_lt.mpr hcost
    refine ⟨hwhole hend, ?_⟩
    rw [Closure.events, hend, if_neg Bool.false_ne_true]
  refine ⟨ids, hids, hbegin, hcut, henough, ?_, ?_⟩
  · rintro hcost front last rfl hlast hfront
    exact ht.not_mem_closure hlast hfront (hcut.mpr hcost)
  · intro hnarrow hroots hcount
    apply henough
    have hcost := hids.cost_le hnarrow
    rw [maxImports] at hcost hroots
    rw [stepLimit, maxImports, maxImportDepth]
    omega

/-! ### Three layers -/

/-- A module in a table of layers of 32 modules, each of which depends on the whole layer below. -/
def layerModule (i : Nat) : Module where
  id := UInt32.ofNat i
  kind := .fragment
  name := String.ofList (List.replicate i 'm')
  nameId := 0
  blob := UInt32.ofNat i
  offset := 0
  deps := if i < 32 then [] else (List.range 32).map fun k => UInt32.ofNat (32 * (i / 32 - 1) + k)

/-- Three layers of 32 modules. -/
def layered : ModuleTable := ⟨((List.range 96).map layerModule).toArray⟩

/-- The modules of the highest layer. -/
def topLayer : List UInt32 := (List.range 32).map fun k => UInt32.ofNat (64 + k)

/-- A module of the layers depends on all modules of the layer below. -/
theorem mem_deps_layerModule {i : Nat} (hi : i < 96) {d : UInt32} :
    d ∈ (layerModule i).deps ↔ d.toNat / 32 + 1 = i / 32 := by
  unfold layerModule
  split
  · next hlt =>
    simp only [List.not_mem_nil, false_iff]
    omega
  · next hge =>
    rw [List.mem_map]
    constructor
    · rintro ⟨k, hk, rfl⟩
      rw [List.mem_range] at hk
      rw [UInt32.toNat_ofNat_of_lt' (by rw [UInt32.size]; omega)]
      omega
    · intro hd
      refine ⟨d.toNat % 32, List.mem_range.mpr (by omega), ?_⟩
      rw [← UInt32.ofNat_toNat (x := d)]
      congr 1
      rw [UInt32.ofNat_toNat]
      omega

theorem layered_modules_eq_some {i : Nat} {m : Module} :
    layered.modules[i]? = some m ↔ i < 96 ∧ m = layerModule i := by
  rw [layered, List.getElem?_toArray, List.getElem?_map]
  by_cases hi : i < 96
  · simp [hi, eq_comm]
  · simp [hi]

/-- The layers are a table that registering can give. -/
theorem layered_wellFormed : layered.WellFormed where
  id_eq i m h := by
    obtain ⟨hi, rfl⟩ := layered_modules_eq_some.mp h
    exact UInt32.toNat_ofNat_of_lt' (by rw [UInt32.size]; omega)
  deps_lt m hm d hd := by
    obtain ⟨i, hm⟩ := Array.mem_iff_getElem?.mp hm
    obtain ⟨hi, rfl⟩ := layered_modules_eq_some.mp hm
    have hd' := (mem_deps_layerModule hi).mp hd
    rw [UInt32.lt_iff_toNat_lt, layerModule, UInt32.toNat_ofNat_of_lt' (by rw [UInt32.size]; omega)]
    omega
  nodup := by
    have hkeys : layered.keys =
        (List.range 96).map fun i => (Kind.fragment, String.ofList (List.replicate i 'm')) := by
      rw [keys, layered, List.map_map]
      rfl
    rw [hkeys]
    refine List.nodup_range.map fun i j h => ?_
    have hlen := congrArg (fun key : Kind × String => key.2.length) h
    simpa using hlen

/-- Dependencies go from a layer to the one below it. -/
theorem layered_dependsOn {x y : UInt32} :
    layered.DependsOn x y ↔ x.toNat < 96 ∧ y.toNat / 32 + 1 = x.toNat / 32 := by
  constructor
  · rintro ⟨m, hm, hy⟩
    obtain ⟨hx, rfl⟩ := layered_modules_eq_some.mp hm
    exact ⟨hx, (mem_deps_layerModule hx).mp hy⟩
  · rintro ⟨hx, hy⟩
    exact ⟨layerModule x.toNat, layered_modules_eq_some.mpr ⟨hx, rfl⟩,
      (mem_deps_layerModule hx).mpr hy⟩

/-- A chain goes one layer down with each module. -/
theorem layered_chain (x : UInt32) (chain : List UInt32)
    (h : (x :: chain).IsChain layered.DependsOn) :
    chain.length ≤ x.toNat / 32 ∧ chain.length ≤ 2 := by
  induction chain generalizing x with
  | nil => exact ⟨Nat.zero_le _, Nat.zero_le _⟩
  | cons y chain ih =>
      obtain ⟨hxy, hchain⟩ := List.isChain_cons_cons.mp h
      obtain ⟨hx, hy⟩ := layered_dependsOn.mp hxy
      obtain ⟨hlength, -⟩ := ih y hchain
      rw [List.length_cons]
      omega

/-- No chain of dependencies in the layers is longer than imports may be deep. -/
theorem layered_chain_le (chain : List UInt32) (h : chain.IsChain layered.DependsOn) :
    chain.length ≤ maxImportDepth := by
  rw [maxImportDepth]
  cases chain with
  | nil => exact Nat.zero_le _
  | cons x chain =>
      have hlength := (layered_chain x chain h).2
      rw [List.length_cons]
      omega

/-- No module of the layers has more dependencies than a declaration can have imports. -/
theorem layered_narrow : layered.Narrow := by
  intro id m hm
  obtain ⟨-, rfl⟩ := layered_modules_eq_some.mp hm
  unfold layerModule
  split <;> simp [maxImports]

/-- The two upper layers, which are reached, are more than the walk has steps for. -/
theorem layered_cutOff : (layered.closure topLayer).cutOff = true := by
  obtain ⟨ids, hids, -, hcut, -⟩ := layered_wellFormed.registered.closure_spec topLayer
  let upper : List UInt32 := (List.range 64).map fun k => UInt32.ofNat (32 + k)
  have hupper : upper ⊆ ids := by
    intro x hx
    obtain ⟨k, hk, rfl⟩ := List.mem_map.mp hx
    rw [List.mem_range] at hk
    have hid : (UInt32.ofNat (32 + k)).toNat = 32 + k :=
      UInt32.toNat_ofNat_of_lt' (by rw [UInt32.size]; omega)
    rw [hids.mem_iff, get?, layered_modules_eq_some.mpr ⟨by omega, rfl⟩]
    refine ⟨?_, rfl⟩
    by_cases htop : 32 ≤ k
    · refine ⟨UInt32.ofNat (32 + k), List.mem_map.mpr ⟨k - 32, List.mem_range.mpr (by omega), ?_⟩,
        .refl⟩
      congr 1
      omega
    · refine ⟨64, by decide, .single (layered_dependsOn.mpr ⟨by decide, ?_⟩)⟩
      rw [hid, show (64 : UInt32).toNat = 64 from rfl]
      omega
  have hnodup : upper.Nodup := by decide +kernel
  obtain ⟨some, hperm, hsublist⟩ := List.subperm_of_subset hnodup hupper
  have hcost : (upper.map layered.visitCost).sum = 2112 := by decide +kernel
  have hle : 2112 ≤ (ids.map layered.visitCost).sum := by
    rw [← hcost, ← (hperm.map layered.visitCost).sum_eq]
    exact (hsublist.map _).sum_le_sum fun _ _ => Nat.zero_le _
  rw [hcut, show topLayer.length = 32 from rfl, stepLimit, maxImports, maxImportDepth]
  omega

/-- A module of the second layer is within the limit with all it reaches, the third layer is not. -/
theorem layered_within_limit : layered.Registered ∧
    (∃ ids, layered.Lists [32, 1] ids ∧ (layered.closure [32, 1]).order = ids ∧
      (layered.closure [32, 1]).events = []) ∧
    ∃ ids, layered.Lists topLayer ids ∧ (layered.closure topLayer).order <+: ids ∧
      stepLimit < topLayer.length + (ids.map layered.visitCost).sum := by
  have hreg := layered_wellFormed.registered
  refine ⟨hreg, ?_, ?_⟩
  · obtain ⟨ids, hids, -, hcut, hwhole, -⟩ := closure_within_limit hreg [32, 1]
    have hend : ¬ (layered.closure [32, 1]).cutOff = true := by decide +kernel
    exact ⟨ids, hids, hwhole (Nat.le_of_not_lt (mt hcut.mpr hend))⟩
  · obtain ⟨ids, hids, hbegin, hcut, -⟩ := closure_within_limit hreg topLayer
    exact ⟨ids, hids, hbegin, hcut.mp layered_cutOff⟩

/-- Three layers are cut off, though no module has more than 32 dependencies and no chain has more
than three modules. -/
theorem layered_incomplete : ¬ ∀ (t : ModuleTable) (roots : List UInt32), t.Registered → t.Narrow →
    (∀ chain : List UInt32, chain.IsChain t.DependsOn → chain.length ≤ maxImportDepth) →
      roots.length ≤ maxImports →
        ∀ id, t.ReachedFrom roots id → (t.get? id).isSome → id ∈ (t.closure roots).order := by
  intro h
  have hlast : (layered.get? 95).isSome := by
    rw [get?, layered_modules_eq_some.mpr ⟨by decide, rfl⟩]; rfl
  have htop : topLayer = ((List.range 31).map fun k => UInt32.ofNat (64 + k)) ++ [95] := by
    decide +kernel
  have hfront : ¬ layered.ReachedFrom ((List.range 31).map fun k => UInt32.ofNat (64 + k)) 95 := by
    rintro ⟨r, hr, hreach⟩
    obtain ⟨k, hk, rfl⟩ := List.mem_map.mp hr
    rw [List.mem_range] at hk
    have hle := le_of_reflTransGen layered_wellFormed hreach
    rw [UInt32.toNat_ofNat_of_lt' (by rw [UInt32.size]; omega),
      show (95 : UInt32).toNat = 95 from rfl] at hle
    omega
  have hmem :=
    h layered topLayer layered_wellFormed.registered layered_narrow layered_chain_le (by decide) 95
    ⟨95, by decide, .refl⟩ hlast
  have hcut := layered_cutOff
  rw [htop] at hmem hcut
  exact layered_wellFormed.registered.not_mem_closure hlast hfront hcut hmem

end ModuleTable

end ShaderPack
