import ShaderPack.Assembly.Basic
import ShaderPack.Proofs.Tables
import Mathlib.Data.List.Forall2

/-!
# Flattening does not see ids

The walk over imports compares ids and looks modules up; it never uses an id in another way. So two
tables that agree up to a change of ids give the same flattened code, also where the walk is cut
off, since both walks take the same steps.

* `Renaming t t' R`: `R` matches modules of two tables one to one, and the dependencies of matched
  modules match in order.
* `flatten_rel`: matched dependencies with matching code give the same flattened code.
* `flatten_congr`, `flatten_of_extends`: the case in which the ids are the same, as when a table
  grows.
-/

namespace ShaderPack

namespace ModuleTable

variable {t t' : ModuleTable} {R : UInt32 → UInt32 → Prop}

/-- `R` matches modules of `t` and `t'` one to one, and matched modules have matching
dependencies. -/
structure Renaming (t t' : ModuleTable) (R : UInt32 → UInt32 → Prop) : Prop where
  biUnique : Relator.BiUnique R
  deps : ∀ x y, R x y →
    ∃ m m', t.get? x = some m ∧ t'.get? y = some m' ∧ List.Forall₂ R m.deps m'.deps

/-- Steps of two walks match if they do the same with matching modules. -/
inductive VisitRel (R : UInt32 → UInt32 → Prop) : Visit → Visit → Prop
  | enter {x y : UInt32} (h : R x y) : VisitRel R (.enter x) (.enter y)
  | leave {x y : UInt32} (h : R x y) : VisitRel R (.leave x) (.leave y)

/-- Matching roots make matching visits. -/
theorem forall₂_enter {ids ids' : List UInt32} (h : List.Forall₂ R ids ids') :
    List.Forall₂ (VisitRel R) (ids.map .enter) (ids'.map .enter) :=
  List.rel_map (fun _ _ h => VisitRel.enter h) h

/-- Leaving out matching ids leaves matching lists. -/
theorem forall₂_erase (hR : Relator.BiUnique R) {x y : UInt32} (hxy : R x y)
    {ids ids' : List UInt32} (h : List.Forall₂ R ids ids') :
    List.Forall₂ R (ids.erase x) (ids'.erase y) := by
  induction h with
  | nil => exact .nil
  | @cons a b ids ids' hab h ih =>
      by_cases hax : a = x
      · have hby : b = y := hR.2 (hax ▸ hab) hxy
        subst hax hby
        rw [List.erase_cons_head, List.erase_cons_head]
        exact h
      · have hby : b ≠ y := fun hby => hax (hR.1 (hby ▸ hab) hxy)
        rw [List.erase_cons_tail (by simpa using hax), List.erase_cons_tail (by simpa using hby)]
        exact .cons hab ih

/-- Matching ids stand in matching lists together or not at all. -/
theorem contains_eq (hR : Relator.BiUnique R) {x y : UInt32} (hxy : R x y) {ids ids' : List UInt32}
    (h : List.Forall₂ R ids ids') : ids.contains x = ids'.contains y := by
  rw [Bool.eq_iff_iff, List.contains_iff_mem, List.contains_iff_mem]
  exact List.rel_mem hR hxy h

/-- Leaving out matching modules keeps lists matching. -/
theorem forall₂_filter_ne (hR : Relator.BiUnique R) {x y : UInt32} (hxy : R x y)
    {ids ids' : List UInt32} (h : List.Forall₂ R ids ids') :
    List.Forall₂ R (ids.filter fun a => !a == x) (ids'.filter fun b => !b == y) := by
  induction h with
  | nil => exact .nil
  | @cons a b ids ids' hab h ih =>
      by_cases hax : a = x
      · have hby : b = y := hR.2 (hax ▸ hab) hxy
        simpa [hax, hby] using ih
      · have hby : b ≠ y := fun hby => hax (hR.1 (hby ▸ hab) hxy)
        simpa [hax, hby] using ⟨hab, ih⟩

/-- Matching lists match with each module once. The first place of a module is the same in both. -/
theorem forall₂_eraseDups (hR : Relator.BiUnique R) {ids ids' : List UInt32}
    (h : List.Forall₂ R ids ids') : List.Forall₂ R ids.eraseDups ids'.eraseDups := by
  cases h with
  | nil => exact .nil
  | @cons a b ids ids' hab h =>
      rw [List.eraseDups_cons, List.eraseDups_cons]
      exact .cons hab (forall₂_eraseDups hR (forall₂_filter_ne hR hab h))
termination_by ids.length
decreasing_by
  exact Nat.lt_succ_of_le (List.length_filter_le _ _)

/-- Names with matching modules, or without modules on both sides, have matching imports. -/
theorem forall₂_importIds (hR : Relator.BiUnique R) {names : List String}
    (h : ∀ name ∈ names, Option.Rel R (t.fragmentId? name) (t'.fragmentId? name)) :
    List.Forall₂ R (t.importIds names) (t'.importIds names) := by
  apply forall₂_eraseDups hR
  induction names with
  | nil => exact .nil
  | cons name names ih =>
      have ih := ih fun other hother => h other (List.mem_cons_of_mem _ hother)
      rw [List.filterMap_cons, List.filterMap_cons]
      have hname := h name List.mem_cons_self
      revert hname
      cases t.fragmentId? name <;> cases t'.fragmentId? name <;> intro hname
      · exact ih
      · cases hname
      · cases hname
      · cases hname with
        | some hxy => exact .cons hxy ih

/-- Walks from matching states find matching modules. -/
theorem walk_rel (hR : Renaming t t' R) (fuel : Nat) {stack stack' : List Visit}
    {path path' found found' : List UInt32} (hstack : List.Forall₂ (VisitRel R) stack stack')
    (hpath : List.Forall₂ R path path') (hfound : List.Forall₂ R found found') :
    List.Forall₂ R (t.walk fuel stack path found).order
      (t'.walk fuel stack' path' found').order := by
  -- matching ids are listed, on the path and registered together, so both walks branch alike
  induction fuel generalizing stack stack' path path' found found' with
  | zero =>
      cases hstack with
      | nil =>
          rw [walk, walk]
          exact List.rel_reverse hfound
      | cons h hstack =>
          rw [walk, walk]
          exact List.rel_reverse hfound
  | succ fuel ih =>
      cases hstack with
      | nil =>
          rw [walk, walk]
          exact List.rel_reverse hfound
      | cons h hstack =>
          cases h with
          | @enter x y hxy =>
              obtain ⟨m, m', hx, hy, hdeps⟩ := hR.deps x y hxy
              rw [walk, walk, contains_eq hR.biUnique hxy hfound, contains_eq hR.biUnique hxy hpath,
                hx, hy]
              split
              · exact ih hstack hpath hfound
              · refine ih (List.rel_append (forall₂_enter hdeps) ?_) (.cons hxy hpath) hfound
                exact .cons (.leave hxy) hstack
          | @leave x y hxy =>
              rw [walk, walk, contains_eq hR.biUnique hxy hfound]
              apply ih hstack (forall₂_erase hR.biUnique hxy hpath)
              split
              · exact hfound
              · exact .cons hxy hfound

/-- Matching roots have matching closures. -/
theorem closure_rel (hR : Renaming t t' R) {roots roots' : List UInt32}
    (h : List.Forall₂ R roots roots') :
    List.Forall₂ R (t.closure roots).order (t'.closure roots').order :=
  walk_rel hR stepLimit (forall₂_enter h) .nil .nil

variable {s s' : BlobStore} {deps deps' : List UInt32}

/-- Flattened code is the same for matching dependencies, if matched modules add the same. -/
theorem flatten_rel (hR : Renaming t t' R)
    (hcode : ∀ x y, R x y → t.contribution s x = t'.contribution s' y)
    (hdeps : List.Forall₂ R deps deps') (own : Bytes) :
    t.flatten s deps own = t'.flatten s' deps' own := by
  have h : ∀ {ids ids' : List UInt32}, List.Forall₂ R ids ids' →
      ids.flatMap (t.contribution s) = ids'.flatMap (t'.contribution s') := by
    intro ids ids' h
    induction h with
    | nil => rfl
    | cons hxy _ ih => rw [List.flatMap_cons, List.flatMap_cons, hcode _ _ hxy, ih]
  rw [flatten, flatten, h (closure_rel hR hdeps)]

/-! ### The same ids -/

/-- If every module of `t` has the same dependencies and adds the same code in `t'`, what `t` makes
of its own modules is what `t'` makes of them. -/
theorem flatten_congr (ht : t.WellFormed)
    (h : ∀ id m, t.get? id = some m → ∃ m', t'.get? id = some m' ∧ m'.deps = m.deps ∧
      t'.contribution s' id = t.contribution s id)
    (hdeps : ∀ d ∈ deps, d.toNat < t.count) (own : Bytes) :
    t'.flatten s' deps own = t.flatten s deps own := by
  let R : UInt32 → UInt32 → Prop := fun x y => x = y ∧ x.toNat < t.count
  have hsame : ∀ {ids : List UInt32}, (∀ d ∈ ids, d.toNat < t.count) → List.Forall₂ R ids ids := by
    intro ids hids
    exact List.forall₂_same.mpr fun d hd => ⟨rfl, hids d hd⟩
  have hR : Renaming t t' R := by
    refine ⟨⟨?_, ?_⟩, ?_⟩
    · rintro x y z ⟨rfl, -⟩ ⟨rfl, -⟩
      rfl
    · rintro x y z ⟨rfl, -⟩ ⟨rfl, -⟩
      rfl
    · rintro x y ⟨rfl, hx⟩
      obtain ⟨m, hm⟩ := exists_get?_of_lt hx
      obtain ⟨m', hm', hdeps', -⟩ := h x m hm
      refine ⟨m, m', hm, hm', ?_⟩
      rw [hdeps']
      exact hsame fun d hd => Nat.lt_trans (ht.dep_lt hm hd) hx
  refine (flatten_rel hR ?_ (hsame hdeps) own).symm
  rintro x y ⟨rfl, hx⟩
  obtain ⟨m, hm⟩ := exists_get?_of_lt hx
  obtain ⟨-, -, -, hcode⟩ := h x m hm
  exact hcode.symm

/-- Every module of the table has its code in the store. -/
def Stored (t : ModuleTable) (s : BlobStore) : Prop :=
  ∀ id m, t.get? id = some m → ∃ code, code ≠ [] ∧ s.blob? m.blob = some code

/-- A module with code contributes it and a line break. -/
theorem contribution_eq {id : UInt32} {m : Module} {code : Bytes} (hm : t.get? id = some m)
    (hcode : s.blob? m.blob = some code) (hne : code ≠ []) :
    t.contribution s id = code ++ [lineBreak] := by
  simp [contribution, hm, hcode, hne]

/-- What a module contributes stays the same while tables grow. -/
theorem Stored.contribution (h : t.Stored s) (ht : t.Extends t') (hs : s.Keeps s') {id : UInt32}
    {m : Module} (hm : t.get? id = some m) : t'.contribution s' id = t.contribution s id := by
  obtain ⟨code, hne, hcode⟩ := h id m hm
  rw [contribution_eq hm hcode hne, contribution_eq (ht.get? hm) (hs _ _ hcode) hne]

/-- Flattened code stays the same while the tables grow. -/
theorem flatten_of_extends (hwf : t.WellFormed) (hstored : t.Stored s) (ht : t.Extends t')
    (hs : s.Keeps s') (hdeps : ∀ d ∈ deps, d.toNat < t.count) (own : Bytes) :
    t'.flatten s' deps own = t.flatten s deps own := by
  apply flatten_congr hwf _ hdeps
  intro id m hm
  exact ⟨m, ht.get? hm, rfl, hstored.contribution ht hs hm⟩

end ModuleTable

end ShaderPack
