import ShaderPack.Schedule
import Mathlib.Data.Fintype.EquivFin
import Mathlib.Data.List.Perm.Subperm
import Mathlib.Logic.Relation
import Mathlib.Order.WellFounded

/-!
# Schedules are dependency-first

`Needs deps i j` says that index `i` lists the index `j`, and that `j` is in range;
`ReachesCycle deps i` says that a cycle of needs can be reached from `i`.

* `order_perm_range`: a schedule has every index once.
* `mem_of_order_eq`: if no cycle is reachable from an index, everything it needs stands before it.
* `mem_before_or_tail`: what an index needs can stand behind it only if both are in the tail of the
  schedule.

All of this rests on one invariant of the passes, `Progress.Valid`, and on the passes ending in a
state in which nothing more can be placed (`Stuck`). That the limit on passes is never what ends
them is `stuck_passes`: a pass that is not the last places an index, and there are fewer indices
than passes.
-/

namespace ShaderPack

namespace Schedule

/-- Index `i` depends on index `j`, which is in range. -/
def Needs (deps : List (List Nat)) (i j : Nat) : Prop :=
  j < deps.length ∧ ∃ ds, deps[i]? = some ds ∧ j ∈ ds

/-- A cycle of dependencies can be reached from `i`. -/
def ReachesCycle (deps : List (List Nat)) (i : Nat) : Prop :=
  ∃ k, Relation.ReflTransGen (Needs deps) i k ∧ Relation.TransGen (Needs deps) k k

variable {deps : List (List Nat)}

/-- An index that needs something is in range. -/
theorem Needs.lt_left {i j : Nat} (h : Needs deps i j) : i < deps.length := by
  obtain ⟨-, ds, hds, -⟩ := h
  exact (List.getElem?_eq_some_iff.mp hds).1

/-! ### One visit -/

namespace Progress

/-- What the passes keep: the marks tell exactly what is placed, and whatever is placed came after
what it needs. The placed indices stand latest first, so "before" is "in the tail". -/
structure Valid (deps : List (List Nat)) (p : Progress) : Prop where
  size : p.done.size = deps.length
  nodup : p.placed.Nodup
  mem_iff : ∀ i, i ∈ p.placed ↔ i < deps.length ∧ p.isDone i = true
  ordered : ∀ i before, i :: before <:+ p.placed → ∀ j, Needs deps i j → j ∈ before

/-- Indices out of range count as done, so they hold nothing up. -/
theorem isDone_of_le {p : Progress} (hp : p.Valid deps) {i : Nat} (h : deps.length ≤ i) :
    p.isDone i = true := by
  rw [← hp.size] at h
  simp [isDone, Array.getD_eq_getD_getElem?, Array.getElem?_eq_none h]

/-- Placing an index marks it and no other. -/
theorem isDone_place {p : Progress} (hp : p.Valid deps) {i : Nat} (hi : i < deps.length) (j : Nat) :
    (p.place i).isDone j = (j == i || p.isDone j) := by
  rw [← hp.size] at hi
  simp only [isDone, place, Array.getD_eq_getD_getElem?, Array.getElem?_setIfInBounds]
  by_cases hij : i = j
  · subst hij
    simp [hi]
  · have hji : ¬ j = i := fun h => hij h.symm
    simp [hij, hji]

/-- The passes start with nothing placed. -/
theorem valid_start (deps : List (List Nat)) : (start deps.length).Valid deps where
  size := by simp [start]
  nodup := List.nodup_nil
  mem_iff i := by
    simp only [start, isDone, List.not_mem_nil, false_iff, not_and, Array.getD_eq_getD_getElem?]
    intro hi
    simp [hi]
  ordered i before h := by
    have := h.length_le
    simp [start] at this

/-- A visit of index `i` with its own list of needs keeps the invariant. -/
theorem Valid.visit {p : Progress} (hp : p.Valid deps) {i : Nat} {needs : List Nat}
    (hi : deps[i]? = some needs) : (p.visit needs i).Valid deps := by
  have hlt : i < deps.length := (List.getElem?_eq_some_iff.mp hi).1
  unfold Progress.visit
  split
  · next hready =>
    simp only [Bool.and_eq_true, Bool.not_eq_true', List.all_eq_true] at hready
    obtain ⟨hfresh, hneeds⟩ := hready
    have hnot : i ∉ p.placed := fun h => by
      rw [((hp.mem_iff i).mp h).2] at hfresh
      cases hfresh
    refine ⟨by simp [place, hp.size], List.nodup_cons.mpr ⟨hnot, hp.nodup⟩, ?_, ?_⟩
    · intro j
      rw [isDone_place hp hlt, place, List.mem_cons, hp.mem_iff]
      by_cases hji : j = i
      · simp [hji, hlt]
      · simp [hji]
    · intro k before hk j hkj
      rw [place, List.suffix_cons_iff] at hk
      rcases hk with hk | hk
      · -- the index just placed: its needs were all marked
        obtain ⟨rfl, rfl⟩ := List.cons.inj hk
        obtain ⟨hj, ds, hds, hmem⟩ := hkj
        rw [hi] at hds
        cases hds
        exact (hp.mem_iff j).mpr ⟨hj, hneeds j hmem⟩
      · exact hp.ordered k before hk j hkj
  · exact hp

/-- A visit takes nothing away. -/
theorem length_le_visit (p : Progress) (needs : List Nat) (i : Nat) :
    p.placed.length ≤ (p.visit needs i).placed.length := by
  unfold visit
  split
  · simp [place]
  · exact le_rfl

/-- A visit that places nothing changes nothing, and leaves a reason. -/
theorem visit_of_length_eq {p : Progress} {needs : List Nat} {i : Nat}
    (h : (p.visit needs i).placed.length = p.placed.length) :
    p.visit needs i = p ∧ (p.isDone i = false → ∃ j ∈ needs, p.isDone j = false) := by
  unfold visit at h ⊢
  split at h
  · simp [place] at h
  · next hready =>
    rw [if_neg hready]
    refine ⟨rfl, fun hi => ?_⟩
    by_contra hall
    apply hready
    simp only [hi, Bool.not_false, Bool.true_and, List.all_eq_true]
    intro j hj
    by_contra hjd
    exact hall ⟨j, hj, by simpa using hjd⟩

/-- No more is placed than there is. -/
theorem Valid.length_le {p : Progress} (hp : p.Valid deps) : p.placed.length ≤ deps.length := by
  have hsub : p.placed ⊆ List.range deps.length := fun i hi =>
    List.mem_range.mpr ((hp.mem_iff i).mp hi).1
  simpa using (List.subperm_of_subset hp.nodup hsub).length_le

end Progress

/-! ### Passes -/

/-- Nothing more can be placed: whatever is not placed waits for something that is not placed. -/
def Stuck (deps : List (List Nat)) (p : Progress) : Prop :=
  ∀ i, i < deps.length → p.isDone i = false → ∃ j, Needs deps i j ∧ p.isDone j = false

section visits

variable {es : List (List Nat × Nat)}

/-- What passes keep, any visits to indices keep. -/
theorem valid_visits (hes : ∀ e ∈ es, deps[e.2]? = some e.1) {p : Progress} (hp : p.Valid deps) :
    (es.foldl (fun p e => p.visit e.1 e.2) p).Valid deps := by
  induction es generalizing p with
  | nil => exact hp
  | cons e es ih =>
      rw [List.foldl_cons]
      apply ih (fun e' he' => hes e' (List.mem_cons_of_mem _ he'))
      exact hp.visit (hes e List.mem_cons_self)

/-- Nor do any visits take something away. -/
theorem length_le_visits (p : Progress) :
    p.placed.length ≤ (es.foldl (fun p e => p.visit e.1 e.2) p).placed.length := by
  induction es generalizing p with
  | nil => exact le_rfl
  | cons e es ih => exact (p.length_le_visit e.1 e.2).trans (ih _)

/-- Visits that place nothing change nothing, and every one of them had a reason. -/
theorem visits_of_length_eq {p : Progress}
    (h : (es.foldl (fun p e => p.visit e.1 e.2) p).placed.length = p.placed.length) :
    es.foldl (fun p e => p.visit e.1 e.2) p = p ∧
      ∀ e ∈ es, p.isDone e.2 = false → ∃ j ∈ e.1, p.isDone j = false := by
  induction es generalizing p with
  | nil => exact ⟨rfl, fun e he => absurd he List.not_mem_nil⟩
  | cons e es ih =>
      rw [List.foldl_cons] at h ⊢
      have hfirst : (p.visit e.1 e.2).placed.length = p.placed.length :=
        le_antisymm (h ▸ length_le_visits _) (p.length_le_visit e.1 e.2)
      obtain ⟨hsame, hreason⟩ := Progress.visit_of_length_eq hfirst
      rw [hsame] at h ⊢
      obtain ⟨hrest, hreasons⟩ := ih h
      refine ⟨hrest, fun e' he' => ?_⟩
      rcases List.mem_cons.mp he' with rfl | he'
      · exact hreason
      · exact hreasons e' he'

end visits

/-- The step lemma: a pass keeps what passes keep. -/
theorem valid_pass {p : Progress} (hp : p.Valid deps) : (pass deps p).Valid deps :=
  valid_visits (fun _ he => List.mem_zipIdx_iff_getElem?.mp he) hp

/-- After a pass that placed nothing, no index can be placed any more. -/
theorem stuck_of_pass {p : Progress} (hp : p.Valid deps)
    (h : (pass deps p).placed.length = p.placed.length) : Stuck deps (pass deps p) := by
  unfold pass at h ⊢
  obtain ⟨hsame, hreasons⟩ := visits_of_length_eq h
  rw [hsame]
  intro i hi hfree
  have hmem : (deps[i], i) ∈ deps.zipIdx :=
    List.mem_zipIdx_iff_getElem?.mpr (List.getElem?_eq_getElem hi)
  obtain ⟨j, hj, hjfree⟩ := hreasons _ hmem hfree
  have hjlt : j < deps.length := by
    by_contra hge
    rw [Progress.isDone_of_le hp (by omega)] at hjfree
    cases hjfree
  exact ⟨j, ⟨hjlt, deps[i], List.getElem?_eq_getElem hi, hj⟩, hjfree⟩

/-- The run lemma: all passes together keep what one keeps. -/
theorem valid_passes (fuel : Nat) {p : Progress} (hp : p.Valid deps) :
    (passes deps fuel p).Valid deps := by
  induction fuel generalizing p with
  | zero => exact hp
  | succ fuel ih =>
      simp only [passes]
      split
      · exact valid_pass hp
      · exact ih (valid_pass hp)

/-- With more passes allowed than indices are left, the passes end because nothing can be placed. -/
theorem stuck_passes (fuel : Nat) {p : Progress} (hp : p.Valid deps)
    (hfuel : deps.length < fuel + p.placed.length) : Stuck deps (passes deps fuel p) := by
  induction fuel generalizing p with
  | zero =>
      have := hp.length_le
      omega
  | succ fuel ih =>
      simp only [passes]
      split
      · next h => exact stuck_of_pass hp h
      · next h =>
        apply ih (valid_pass hp)
        have hle : p.placed.length ≤ (pass deps p).placed.length := length_le_visits p
        omega

/-! ### The whole schedule -/

/-- The state in which the passes end. -/
def final (deps : List (List Nat)) : Progress :=
  passes deps (passLimit deps.length) (.start deps.length)

/-- A schedule has what the passes placed, in that order, and then the rest in ascending order. -/
theorem order_ofDeps (deps : List (List Nat)) : (ofDeps deps).order =
    (final deps).placed.reverse ++
      (List.range deps.length).filter fun i => !(final deps).isDone i := rfl

/-- So it holds in the end. -/
theorem valid_final (deps : List (List Nat)) : (final deps).Valid deps :=
  valid_passes _ (Progress.valid_start deps)

/-- There are more passes than indices. -/
theorem lt_passLimit_add (n : Nat) : n < passLimit n + (Progress.start n).placed.length := by
  have : n ≤ n * n := Nat.le_mul_self n
  simp only [passLimit, Progress.start, List.length_nil]
  omega

/-- In the end no index can be placed any more: each pass but the last placed one, so the limit of
passes is not reached. -/
theorem stuck_final (deps : List (List Nat)) : Stuck deps (final deps) :=
  stuck_passes _ (Progress.valid_start deps) (lt_passLimit_add deps.length)

/-- A schedule has every index exactly once. -/
theorem order_perm_range (deps : List (List Nat)) :
    (ofDeps deps).order.Perm (List.range deps.length) := by
  have hv := valid_final deps
  rw [order_ofDeps, List.perm_ext_iff_of_nodup ?_ List.nodup_range]
  · intro i
    rw [List.mem_append, List.mem_reverse, hv.mem_iff, List.mem_filter, List.mem_range]
    cases (final deps).isDone i <;> simp
  · rw [List.nodup_append]
    refine ⟨List.nodup_reverse.mpr hv.nodup, List.nodup_range.filter _, ?_⟩
    rintro i hi j hj rfl
    have hdone := ((hv.mem_iff i).mp (List.mem_reverse.mp hi)).2
    simp [hdone] at hj

/-- In a state in which nothing can be placed, an index from which no cycle is reachable is placed:
among the indices that are not placed and that it reaches, a last one would have to wait for another
such index. -/
theorem isDone_of_stuck {p : Progress} (hstuck : Stuck deps p) {i : Nat} (hi : i < deps.length)
    (hacyclic : ¬ ReachesCycle deps i) : p.isDone i = true := by
  by_contra hfree
  let T := {j : Fin deps.length // Relation.ReflTransGen (Needs deps) i j}
  let after : T → T → Prop := fun a b => Relation.TransGen (Needs deps) b.1 a.1
  have : IsTrans T after := ⟨fun _ _ _ hab hbc => hbc.trans hab⟩
  have : Std.Irrefl after := ⟨fun a ha => hacyclic ⟨a.1, a.2, ha⟩⟩
  have hwf : WellFounded after := Finite.wellFounded_of_trans_of_irrefl after
  obtain ⟨⟨m, him⟩, hmfree, hmin⟩ := hwf.has_min {a : T | p.isDone a.1 = false}
    ⟨⟨⟨i, hi⟩, .refl⟩, by simpa using hfree⟩
  obtain ⟨j, hmj, hjfree⟩ := hstuck m m.2 hmfree
  exact hmin ⟨⟨j, hmj.1⟩, him.tail hmj⟩ hjfree (.single hmj)

/-- An index stands in a schedule once, so what stands before it is determined. -/
theorem before_eq {i : Nat} {before before' after after' : List Nat}
    (h : (ofDeps deps).order = before ++ i :: after)
    (h' : (ofDeps deps).order = before' ++ i :: after') : before = before' := by
  have hnodup : (before ++ i :: after).Nodup :=
    h ▸ (order_perm_range deps).nodup_iff.mpr List.nodup_range
  obtain ⟨-, hafter, hdisj⟩ := List.nodup_append.mp hnodup
  have hbefore : i ∉ before := fun hmem => hdisj i hmem i List.mem_cons_self rfl
  exact ((List.append_cons_inj_of_notMem hbefore (List.nodup_cons.mp hafter).1).mp
    (h.symm.trans h')).1

/-- Everything that an index needs stands before it in the schedule, if the passes placed the
index. -/
theorem mem_of_placed {i j : Nat} (hplaced : i ∈ (final deps).placed) (hij : Needs deps i j)
    {before after : List Nat} (h : (ofDeps deps).order = before ++ i :: after) : j ∈ before := by
  obtain ⟨later, earlier, hsplit⟩ := List.append_of_mem hplaced
  have hj : j ∈ earlier := (valid_final deps).ordered i earlier ⟨later, hsplit.symm⟩ j hij
  have horder : (ofDeps deps).order = earlier.reverse ++ i :: (later.reverse ++
      (List.range deps.length).filter fun i => !(final deps).isDone i) := by
    rw [order_ofDeps, hsplit]
    simp
  rw [before_eq h horder]
  exact List.mem_reverse.mpr hj

/-- Everything that an index needs stands before it in the schedule, if no cycle is reachable from
the index. -/
theorem mem_of_order_eq {i j : Nat} (hacyclic : ¬ ReachesCycle deps i) (hij : Needs deps i j)
    {before after : List Nat} (h : (ofDeps deps).order = before ++ i :: after) : j ∈ before := by
  have hdone := isDone_of_stuck (stuck_final deps) hij.lt_left hacyclic
  exact mem_of_placed (((valid_final deps).mem_iff i).mpr ⟨hij.lt_left, hdone⟩) hij h

/-! ### The tail of a schedule -/

/-- The indices at the end of a schedule that the passes could not place. -/
def tail (s : Schedule) : List Nat := s.order.drop (s.order.length - s.drained)

/-- The tail of a schedule has what could not be placed, in ascending order. -/
theorem tail_ofDeps (deps : List (List Nat)) : (ofDeps deps).tail =
    (List.range deps.length).filter fun i => !(final deps).isDone i := by
  have hdrained : (ofDeps deps).drained =
      ((List.range deps.length).filter fun i => !(final deps).isDone i).length := rfl
  rw [tail, hdrained, order_ofDeps, List.length_append, Nat.add_sub_cancel, List.drop_left]

/-- A schedule is what the passes placed, and then its tail. -/
theorem order_eq_append_tail (deps : List (List Nat)) :
    (ofDeps deps).order = (final deps).placed.reverse ++ (ofDeps deps).tail := by
  rw [tail_ofDeps, order_ofDeps]

/-- The schedule tells how long its tail is. -/
theorem length_tail (deps : List (List Nat)) :
    (ofDeps deps).tail.length = (ofDeps deps).drained := by
  rw [tail_ofDeps]
  rfl

/-- Every index is placed or in the tail. -/
theorem mem_placed_or_tail {i : Nat} (hi : i < deps.length) :
    i ∈ (final deps).placed ∨ i ∈ (ofDeps deps).tail := by
  have hmem : i ∈ (ofDeps deps).order := (order_perm_range deps).mem_iff.mpr (List.mem_range.mpr hi)
  rwa [order_eq_append_tail, List.mem_append, List.mem_reverse] at hmem

/-- What an index needs stands before it in the schedule, unless both are in the tail. -/
theorem mem_before_or_tail {i j : Nat} (hij : Needs deps i j) {before after : List Nat}
    (h : (ofDeps deps).order = before ++ i :: after) :
    j ∈ before ∨ i ∈ (ofDeps deps).tail ∧ j ∈ (ofDeps deps).tail := by
  rcases mem_placed_or_tail hij.lt_left with hi | hi
  · exact .inl (mem_of_placed hi hij h)
  rcases mem_placed_or_tail hij.1 with hj | hj
  · -- whatever was placed stands before the tail
    obtain ⟨front, back, hsplit⟩ := List.append_of_mem hi
    have horder := order_eq_append_tail deps
    rw [hsplit, ← List.append_assoc] at horder
    rw [before_eq h horder]
    exact .inl (List.mem_append_left _ (List.mem_reverse.mpr hj))
  · exact .inr ⟨hi, hj⟩

end Schedule

end ShaderPack
