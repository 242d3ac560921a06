import ShaderPack.Proofs.CyclicPart
import Mathlib.Data.Finset.Lattice.Fold
import Mathlib.Data.List.Sort
import Mathlib.Data.Prod.Lex
import Mathlib.Order.Lattice.Nat

/-!
# Schedules by level

The passes go over the indices in increasing order, and what they place counts at once. So an index
that needs a smaller one can be placed in the same pass, and an index that needs a greater one has
to wait for the next pass. The `level` of an index counts these waits: it is the number of passes
before the one that places the index.

* `level_eq`: the recursion for levels, which determines them where no cycle is reachable.
* `PlacedBelow`: at index `i` of pass `k`, exactly the indices whose `rank` (level, then index) is
  below `(k, i)` are placed, in increasing order. One visit goes from `i` to `i + 1`
  (`PlacedBelow.visit`), a pass goes from `k` to `k + 1` (`PlacedBelow.pass`).
* `ofDeps_congr`, `order_eq_range`: what this says about dependencies written in another way, and
  about dependencies on smaller indices only.
-/

namespace ShaderPack

namespace Schedule

variable {deps deps' : List (List Nat)}

/-! ### Levels -/

/-- The indices in range that index `i` depends on. -/
def needed (deps : List (List Nat)) (i : Nat) : Finset Nat :=
  ((deps.getD i []).filter (· < deps.length)).toFinset

/-- The set of what an index needs, and the relation. -/
theorem mem_needed {i j : Nat} : j ∈ needed deps i ↔ Needs deps i j := by
  rw [needed, List.mem_toFinset, List.mem_filter, decide_eq_true_eq, Needs, and_comm,
    List.getD_eq_getElem?_getD]
  cases deps[i]? <;> simp

/-- The level of an index, as far as chains of `depth` dependencies tell. -/
def levelWithin (deps : List (List Nat)) : (depth i : Nat) → Nat
  | 0, _ => 0
  | depth + 1, i =>
    (needed deps i).sup fun d =>
      if d < i then levelWithin deps depth d else levelWithin deps depth d + 1

/-- The level of an index: the greatest level of what it needs, with one more for what is greater
than itself. Without a cycle, no chain of dependencies is longer than the count of indices. -/
def level (deps : List (List Nat)) (i : Nat) : Nat := levelWithin deps deps.length i

/-- The level of an index, and the index itself to tell it from others of its level. -/
def rank (deps : List (List Nat)) (i : Nat) : Nat ×ₗ Nat := toLex (level deps i, i)

/-- Ranks are compared by levels first and by indices then. -/
theorem rank_lt_iff {i k j : Nat} :
    rank deps j < toLex (k, i) ↔ level deps j < k ∨ level deps j = k ∧ j < i :=
  Prod.Lex.toLex_lt_toLex

/-- Going on by one index matters for the index itself only. -/
theorem rank_lt_succ_iff {i k j : Nat} :
    rank deps j < toLex (k, i + 1) ↔ rank deps j < toLex (k, i) ∨ j = i ∧ level deps i = k := by
  rw [rank_lt_iff, rank_lt_iff]
  by_cases hj : j = i
  · subst hj
    omega
  · omega

/-- What an index needs is placed before it, so the depth that matters is the number of indices
placed before. -/
theorem levelWithin_eq {i a b : Nat} {before : List Nat} (h : i :: before <:+ (final deps).placed)
    (ha : before.length < a) (hb : before.length < b) :
    levelWithin deps a i = levelWithin deps b i := by
  -- on how many are placed before `i`: what it needs is among them, with fewer before it
  induction hn : before.length using Nat.strongRecOn generalizing i a b before with
  | ind n ih =>
      subst hn
      obtain ⟨a, rfl⟩ := Nat.exists_eq_add_one_of_ne_zero (Nat.ne_zero_of_lt ha)
      obtain ⟨b, rfl⟩ := Nat.exists_eq_add_one_of_ne_zero (Nat.ne_zero_of_lt hb)
      rw [levelWithin, levelWithin]
      apply Finset.sup_congr rfl
      intro d hd
      have hmem : d ∈ before := (valid_final deps).ordered i before h d (mem_needed.mp hd)
      obtain ⟨later, earlier, rfl⟩ := List.append_of_mem hmem
      have hsuffix : d :: earlier <:+ (final deps).placed :=
        ((List.suffix_append _ _).trans (List.suffix_cons _ _)).trans h
      rw [List.length_append, List.length_cons] at ha hb
      rw [ih earlier.length (by rw [List.length_append, List.length_cons]; omega) hsuffix
        (a := a) (b := b) (by omega) (by omega) rfl]

/-- The recursion for levels. -/
theorem level_eq {i : Nat} (hacyclic : ¬ ReachesCycle deps i) : level deps i =
    (needed deps i).sup fun d => if d < i then level deps d else level deps d + 1 := by
  change levelWithin deps deps.length i = levelWithin deps (deps.length + 1) i
  by_cases hi : i < deps.length
  · obtain ⟨later, before, hsplit⟩ :=
      List.append_of_mem ((mem_placed_final_iff deps i).mpr ⟨hi, hacyclic⟩)
    have hlength := (valid_final deps).length_le
    rw [hsplit, List.length_append, List.length_cons] at hlength
    exact levelWithin_eq ⟨later, hsplit.symm⟩ (by omega) (by omega)
  · have hnone : needed deps i = ∅ := by
      rw [Finset.eq_empty_iff_forall_notMem]
      intro j hj
      exact hi (mem_needed.mp hj).lt_left
    cases deps.length <;> simp [levelWithin, hnone]

/-- When a level is bounded, told by the levels of what the index needs. -/
theorem level_le_iff {i k : Nat} (hacyclic : ¬ ReachesCycle deps i) :
    level deps i ≤ k ↔ ∀ d, Needs deps i d →
    (if d < i then level deps d else level deps d + 1) ≤ k := by
  rw [level_eq hacyclic, Finset.sup_le_iff]
  simp only [mem_needed]

/-! ### Passes -/

/-- An index that needs one that reaches a cycle reaches it too. -/
theorem ReachesCycle.of_needs {i j : Nat} (h : Needs deps i j) (hcycle : ReachesCycle deps j) :
    ReachesCycle deps i := by
  obtain ⟨k, hjk, hk⟩ := hcycle
  exact ⟨k, .head h hjk, hk⟩

/-- An index that reaches a cycle needs one that does. -/
theorem ReachesCycle.exists_needs {i : Nat} (h : ReachesCycle deps i) :
    ∃ j, Needs deps i j ∧ ReachesCycle deps j := by
  obtain ⟨k, hik, hk⟩ := h
  rcases Relation.ReflTransGen.cases_head hik with rfl | ⟨j, hij, hjk⟩
  · obtain ⟨j, hij, hji⟩ := Relation.TransGen.head'_iff.mp hk
    exact ⟨j, hij, i, hji, hk⟩
  · exact ⟨j, hij, k, hjk, hk⟩

/-- The placed indices are those that reach no cycle and have a rank below `(k, i)`, in the order of
their ranks. -/
structure PlacedBelow (deps : List (List Nat)) (k i : Nat) (p : Progress) : Prop where
  valid : p.Valid deps
  mem_iff : ∀ j, j ∈ p.placed ↔ (j < deps.length ∧ ¬ ReachesCycle deps j) ∧
      rank deps j < toLex (k, i)
  sorted : p.placed.Pairwise fun a b => rank deps b < rank deps a

namespace PlacedBelow

variable {p : Progress} {k i : Nat}

/-- Before the first pass nothing is placed, and nothing has a rank that low. -/
theorem start (deps : List (List Nat)) : PlacedBelow deps 0 0 (.start deps.length) where
  valid := Progress.valid_start deps
  mem_iff j := by simp [Progress.start, rank_lt_iff]
  sorted := List.Pairwise.nil

/-- What is marked as done at index `i` of pass `k`, told by levels. -/
theorem isDone_iff (h : PlacedBelow deps k i p) {j : Nat} (hj : j < deps.length) :
    p.isDone j = true ↔ ¬ ReachesCycle deps j ∧ (level deps j < k ∨ level deps j = k ∧ j < i) := by
  have hplaced := h.mem_iff j
  rw [h.valid.mem_iff, rank_lt_iff] at hplaced
  simpa [hj] using hplaced

/-- At index `i` of pass `k`, all that `i` needs is placed exactly if its level is at most `k`. What
it needs of a smaller index may have been placed in this pass, what it needs of a greater one was
not. -/
theorem all_isDone_iff (h : PlacedBelow deps k i p) {needs : List Nat}
    (hi : deps[i]? = some needs) :
    needs.all p.isDone = true ↔ ¬ ReachesCycle deps i ∧ level deps i ≤ k := by
  have hneeds (d : Nat) : Needs deps i d ↔ d < deps.length ∧ d ∈ needs := by simp [Needs, hi]
  rw [List.all_eq_true]
  constructor
  · intro hall
    have hdone (d : Nat) (hd : Needs deps i d) :
        ¬ ReachesCycle deps d ∧ (level deps d < k ∨ level deps d = k ∧ d < i) :=
      (h.isDone_iff hd.1).mp (hall d ((hneeds d).mp hd).2)
    have hacyclic : ¬ ReachesCycle deps i := by
      intro hcycle
      obtain ⟨d, hd, hdcycle⟩ := hcycle.exists_needs
      exact (hdone d hd).1 hdcycle
    refine ⟨hacyclic, (level_le_iff hacyclic).mpr ?_⟩
    intro d hd
    have := (hdone d hd).2
    split <;> omega
  · rintro ⟨hacyclic, hlevel⟩ d hd
    by_cases hlt : d < deps.length
    · have hid : Needs deps i d := (hneeds d).mpr ⟨hlt, hd⟩
      have hne : d ≠ i := by
        rintro rfl
        exact hacyclic ⟨d, .refl, .single hid⟩
      have hle := (level_le_iff hacyclic).mp hlevel d hid
      rw [h.isDone_iff hlt]
      refine ⟨fun hcycle => hacyclic (hcycle.of_needs hid), ?_⟩
      split at hle <;> omega
    · exact Progress.isDone_of_le h.valid (Nat.le_of_not_lt hlt)

/-- At index `i` of pass `k`, the index is placed exactly if its level is `k`. -/
theorem ready_iff (h : PlacedBelow deps k i p) {needs : List Nat} (hi : deps[i]? = some needs) :
    (!p.isDone i && needs.all p.isDone) = true ↔ ¬ ReachesCycle deps i ∧ level deps i = k := by
  have hdone := h.isDone_iff (List.getElem?_eq_some_iff.mp hi).1
  rw [Bool.and_eq_true, Bool.not_eq_true', h.all_isDone_iff hi]
  constructor
  · rintro ⟨hfree, hacyclic, hle⟩
    refine ⟨hacyclic, Nat.le_antisymm hle (Nat.le_of_not_lt ?_)⟩
    intro hlt
    rw [hdone.mpr ⟨hacyclic, .inl hlt⟩] at hfree
    cases hfree
  · rintro ⟨hacyclic, hlevel⟩
    refine ⟨Bool.eq_false_of_not_eq_true ?_, hacyclic, hlevel.le⟩
    intro hplaced
    have := (hdone.mp hplaced).2
    omega

/-- One visit. -/
theorem visit (h : PlacedBelow deps k i p) {needs : List Nat} (hi : deps[i]? = some needs) :
    PlacedBelow deps k (i + 1) (p.visit needs i) := by
  have hlt : i < deps.length := (List.getElem?_eq_some_iff.mp hi).1
  have hready := h.ready_iff hi
  have hvalid := h.valid.visit hi
  unfold Progress.visit at hvalid ⊢
  split at hvalid
  · next hvisit =>
    obtain ⟨hacyclic, hlevel⟩ := hready.mp hvisit
    rw [if_pos hvisit]
    refine ⟨hvalid, fun j => ?_, List.pairwise_cons.mpr ⟨fun j hj => ?_, h.sorted⟩⟩
    · rw [Progress.place, List.mem_cons, h.mem_iff, rank_lt_succ_iff]
      by_cases hj : j = i
      · simp [hj, hlt, hacyclic, hlevel]
      · simp [hj]
    · have hbelow := ((h.mem_iff j).mp hj).2
      rwa [← hlevel] at hbelow
  · next hvisit =>
    rw [if_neg hvisit]
    refine ⟨hvalid, fun j => ?_, h.sorted⟩
    rw [h.mem_iff, rank_lt_succ_iff]
    by_cases hj : j = i
    · subst hj
      have : ¬ (¬ ReachesCycle deps j ∧ level deps j = k) := mt hready.mpr hvisit
      tauto
    · simp [hj]

/-- The visits of the indices in `rest`, which are those from `before.length` on. -/
theorem visits (before : List (List Nat)) {rest : List (List Nat)} (hdeps : deps = before ++ rest)
    (h : PlacedBelow deps k before.length p) :
    PlacedBelow deps k deps.length
      ((rest.zipIdx before.length).foldl (fun p e => p.visit e.1 e.2) p) := by
  -- on the indices to come; each one visited moves over to `before`
  induction rest generalizing before p with
  | nil =>
      rw [List.append_nil] at hdeps
      rw [hdeps] at h ⊢
      exact h
  | cons needs rest ih =>
      have hi : deps[before.length]? = some needs := by
        rw [hdeps, List.getElem?_append_right (Nat.le_refl _), Nat.sub_self]
        rfl
      rw [List.zipIdx_cons, List.foldl_cons]
      have hnext := ih (before ++ [needs]) (p := p.visit needs before.length)
      rw [List.length_append, List.length_singleton, List.append_assoc] at hnext
      exact hnext hdeps (h.visit hi)

/-- One pass. -/
theorem pass (h : PlacedBelow deps k 0 p) : PlacedBelow deps (k + 1) 0 (pass deps p) := by
  have hend : PlacedBelow deps k deps.length (Schedule.pass deps p) := visits [] rfl h
  refine ⟨hend.valid, fun j => ?_, hend.sorted⟩
  refine (hend.mem_iff j).trans (and_congr_right fun hj => ?_)
  rw [rank_lt_iff, rank_lt_iff]
  omega

/-- The run lemma: however many passes there are, what they placed is what has a rank below some
pass. -/
theorem passes (fuel : Nat) (h : PlacedBelow deps k 0 p) :
    ∃ k', PlacedBelow deps k' 0 (passes deps fuel p) := by
  induction fuel generalizing k p with
  | zero => exact ⟨k, h⟩
  | succ fuel ih =>
      simp only [Schedule.passes]
      split
      · exact ⟨k + 1, h.pass⟩
      · exact ih h.pass

end PlacedBelow

/-! ### The whole schedule -/

/-- The front of a schedule is in the order of the ranks. -/
theorem pairwise_front (deps : List (List Nat)) :
    (ofDeps deps).front.Pairwise fun a b => rank deps a < rank deps b := by
  obtain ⟨k, hk⟩ := (PlacedBelow.start deps).passes (passLimit deps.length)
  rw [front_ofDeps, List.pairwise_reverse]
  exact hk.sorted

/-- The front of a schedule has no index twice. -/
theorem nodup_front (deps : List (List Nat)) : (ofDeps deps).front.Nodup := by
  rw [front_ofDeps, List.nodup_reverse]
  exact (valid_final deps).nodup

/-- The front of a schedule has the indices that reach no cycle, sorted by rank. -/
theorem front_eq_mergeSort (deps : List (List Nat)) : (ofDeps deps).front =
    ((List.range deps.length).filter fun i => ¬ ReachesCycle deps i).mergeSort
      fun a b => rank deps a ≤ rank deps b := by
  have hsorted (l : List Nat) : (l.mergeSort fun a b => rank deps a ≤ rank deps b).Pairwise
      fun a b => rank deps a ≤ rank deps b := by
    refine (List.pairwise_mergeSort ?_ ?_ l).imp of_decide_eq_true
    · intro a b c
      simpa using le_trans
    · intro a b
      simpa using le_total (rank deps a) (rank deps b)
  have hperm :
      (ofDeps deps).front.Perm
        ((List.range deps.length).filter fun i => ¬ ReachesCycle deps i) := by
    rw [List.perm_ext_iff_of_nodup (nodup_front deps) (List.nodup_range.filter _)]
    intro i
    rw [mem_front_iff, List.mem_filter, List.mem_range, decide_eq_true_eq]
  refine List.Perm.eq_of_pairwise ?_ ((pairwise_front deps).imp le_of_lt) (hsorted _)
    (hperm.trans (List.mergeSort_perm _ _).symm)
  intro a b _ _ hab hba
  exact congrArg (fun r => (ofLex r).2) (le_antisymm hab hba)

section rewritten

variable (hlength : deps'.length = deps.length) (hneeds : ∀ i j, Needs deps' i j ↔ Needs deps i j)
include hneeds

/-- Whether an index reaches a cycle depends on the indices that are needed only. -/
theorem reachesCycle_congr (i : Nat) : ReachesCycle deps' i ↔ ReachesCycle deps i := by
  have hsame : Needs deps' = Needs deps := by
    funext i j
    exact propext (hneeds i j)
  rw [ReachesCycle, ReachesCycle, hsame]

/-- So does its level. -/
theorem levelWithin_congr (depth : Nat) : levelWithin deps' depth = levelWithin deps depth := by
  have hneeded : needed deps' = needed deps := by
    funext i
    ext j
    rw [mem_needed, mem_needed, hneeds]
  induction depth with
  | zero => rfl
  | succ depth ih =>
      funext i
      rw [levelWithin, levelWithin, hneeded, ih]

include hlength

/-- So does its rank. -/
theorem rank_congr : rank deps' = rank deps := by
  funext i
  rw [rank, rank, level, level, hlength, levelWithin_congr hneeds]

/-- A schedule depends on the indices that are needed, and not on the way in which they are
listed. -/
theorem ofDeps_congr : ofDeps deps' = ofDeps deps := by
  have hfront : (ofDeps deps').front = (ofDeps deps).front := by
    rw [front_eq_mergeSort, front_eq_mergeSort, hlength, rank_congr hlength hneeds]
    simp only [reachesCycle_congr hneeds]
  have htail : (ofDeps deps').tail = (ofDeps deps).tail := by
    apply (pairwise_tail deps').eq_of_mem_iff (pairwise_tail deps)
    intro i
    rw [mem_tail_iff, mem_tail_iff, reachesCycle_congr hneeds]
  have horder : (ofDeps deps').order = (ofDeps deps).order := by
    rw [order_eq_front_append_tail, order_eq_front_append_tail, hfront, htail]
  have hdrained : (ofDeps deps').drained = (ofDeps deps).drained := by
    rw [← length_tail, ← length_tail, htail]
  calc ofDeps deps' = ⟨(ofDeps deps').order, (ofDeps deps').drained⟩ := rfl
    _ = ofDeps deps := by rw [horder, hdrained]

end rewritten

section ascending

variable (hneeds : ∀ i j, Needs deps i j → j < i)
include hneeds

/-- Indices that need smaller ones only are on no cycle. -/
theorem not_reachesCycle_of_lt (i : Nat) : ¬ ReachesCycle deps i := by
  have hdown {i j : Nat} (h : Relation.TransGen (Needs deps) i j) : j < i := by
    induction h with
    | single hij => exact hneeds _ _ hij
    | tail _ hjk ih => exact (hneeds _ _ hjk).trans ih
  rintro ⟨k, -, hcycle⟩
  exact Nat.lt_irrefl k (hdown hcycle)

/-- Indices that need smaller ones only are on the lowest level. -/
theorem level_eq_zero (i : Nat) : level deps i = 0 := by
  induction i using Nat.strongRecOn with
  | ind i ih =>
      rw [← Nat.le_zero, level_le_iff (not_reachesCycle_of_lt hneeds i)]
      intro d hd
      rw [if_pos (hneeds i d hd), ih d (hneeds i d hd)]

/-- Indices that need smaller ones only are scheduled as they are: they are all on the lowest
level. -/
theorem order_eq_range : (ofDeps deps).order = List.range deps.length := by
  have htail : (ofDeps deps).tail = [] := by
    rw [List.eq_nil_iff_forall_not_mem]
    intro i hi
    exact not_reachesCycle_of_lt hneeds i ((mem_tail_iff deps i).mp hi)
  have hsorted : (ofDeps deps).order.Pairwise (· < ·) := by
    rw [order_eq_front_append_tail, htail, List.append_nil]
    refine (pairwise_front deps).imp fun {a b} hab => ?_
    rw [rank, rank, Prod.Lex.toLex_lt_toLex, level_eq_zero hneeds, level_eq_zero hneeds] at hab
    simpa using hab
  exact hsorted.eq_of_mem_iff List.pairwise_lt_range fun i => (order_perm_range deps).mem_iff

end ascending

/-- **A schedule goes by level, then by index.** Levels are given by their recursion. The indices
that reach no cycle stand first in the schedule, sorted by level and index. So it does not matter in
what order, how often or with what else out of range the dependencies of an index are listed, and
indices that need smaller ones only keep their order. -/
theorem sorted_by_level (deps : List (List Nat)) :
    (∀ i, ¬ ReachesCycle deps i → level deps i =
        (needed deps i).sup fun d => if d < i then level deps d else level deps d + 1) ∧
      (ofDeps deps).order.take (deps.length - (ofDeps deps).drained) =
        ((List.range deps.length).filter fun i => ¬ ReachesCycle deps i).mergeSort
          (fun a b => rank deps a ≤ rank deps b) ∧
      (∀ deps', deps'.length = deps.length → (∀ i j, Needs deps' i j ↔ Needs deps i j) →
        ofDeps deps' = ofDeps deps) ∧
      ((∀ i j, Needs deps i j → j < i) → (ofDeps deps).order = List.range deps.length) := by
  refine ⟨fun i => level_eq, ?_, fun deps' => ofDeps_congr, order_eq_range⟩
  have hlength : (ofDeps deps).order.length = deps.length := by
    rw [(order_perm_range deps).length_eq, List.length_range]
  rw [← front_eq_mergeSort, front, hlength]

/-- Index 0 waits for index 2, so it is placed by the second pass. -/
theorem waiting_sorted_by_level :
    ¬ ReachesCycle [[2], [0], []] 1 ∧
      level [[2], [0], []] 1 = (needed [[2], [0], []] 1).sup (fun d =>
        if d < 1 then level [[2], [0], []] d else level [[2], [0], []] d + 1) ∧
      ofDeps [[2, 9, 2], [0], [7]] = ofDeps [[2], [0], []] ∧
      (ofDeps [[2], [0], []]).order = [2, 0, 1] ∧
      (ofDeps [[], [0], [1, 0]]).order = [0, 1, 2] := by
  have hacyclic : ¬ ReachesCycle [[2], [0], []] 1 := by decide
  refine ⟨hacyclic, (sorted_by_level _).1 1 hacyclic, (sorted_by_level _).2.2.1 _ rfl ?_, by decide,
    (sorted_by_level [[], [0], [1, 0]]).2.2.2 ?_⟩
  · intro i j
    rcases i with _ | _ | _ | i <;> simp [Needs] <;> omega
  · rintro i j ⟨-, needs, hneeds, hj⟩
    rcases i with _ | _ | _ | i <;> simp at hneeds <;> subst hneeds <;> simp at hj <;> omega

end Schedule

end ShaderPack
