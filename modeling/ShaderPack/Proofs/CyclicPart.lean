import ShaderPack.Proofs.ScheduleOrder

/-!
# The cyclic part of a schedule

A schedule has a front, which is what the passes placed, and a tail, which is what they left.

* `Progress.Valid.not_reachesCycle`: whatever a pass places comes behind all it needs, directly or
  through others, so it is not on a cycle and reaches none. With `isDone_of_stuck`, the front is
  what reaches no cycle (`mem_front_iff`) and the tail is what reaches one (`mem_tail_iff`).
* `loop` makes the passes and tells why it stops. It ends where `passes` ends (`fst_loop`), and
  there are always passes left when it does (`snd_loop_ne_limit`).

`drains_cyclic_part` puts the whole together.
-/

namespace ShaderPack

namespace Schedule

variable {deps : List (List Nat)}

/-! ### What is placed reaches no cycle -/

/-- Whatever is placed came after all it needs, directly or through others. -/
theorem Progress.Valid.mem_of_transGen {p : Progress} (hp : p.Valid deps) {i j : Nat}
    {before : List Nat} (h : i :: before <:+ p.placed) (hij : Relation.TransGen (Needs deps) i j) :
    j ∈ before := by
  induction hij with
  | single hneeds => exact hp.ordered i before h _ hneeds
  | tail _ hneeds ih =>
      obtain ⟨later, earlier, hsplit⟩ := List.append_of_mem ih
      have hbefore : before <:+ p.placed := (List.suffix_cons i before).trans h
      have hearlier := hp.ordered _ earlier (.trans ⟨later, hsplit.symm⟩ hbefore) _ hneeds
      rw [hsplit]
      exact List.mem_append_right _ (List.mem_cons_of_mem _ hearlier)

/-- Everything that a placed index needs, directly or through others, is placed. -/
theorem Progress.Valid.mem_of_reflTransGen {p : Progress} (hp : p.Valid deps) {i j : Nat}
    (hi : i ∈ p.placed) (hij : Relation.ReflTransGen (Needs deps) i j) : j ∈ p.placed := by
  obtain ⟨later, before, hsplit⟩ := List.append_of_mem hi
  rcases Relation.reflTransGen_iff_eq_or_transGen.mp hij with rfl | hij
  · exact hi
  · have hj := hp.mem_of_transGen ⟨later, hsplit.symm⟩ hij
    rw [hsplit]
    exact List.mem_append_right _ (List.mem_cons_of_mem _ hj)

/-- What is placed reaches no cycle: on a cycle, an index would have been placed before itself. -/
theorem Progress.Valid.not_reachesCycle {p : Progress} (hp : p.Valid deps) {i : Nat}
    (hi : i ∈ p.placed) : ¬ ReachesCycle deps i := by
  rintro ⟨k, hik, hcycle⟩
  obtain ⟨later, before, hsplit⟩ := List.append_of_mem (hp.mem_of_reflTransGen hi hik)
  have hmem : k ∈ before := hp.mem_of_transGen ⟨later, hsplit.symm⟩ hcycle
  have hnodup := hp.nodup
  rw [hsplit] at hnodup
  exact (List.nodup_cons.mp (List.nodup_append.mp hnodup).2.1).1 hmem

/-- An index that reaches a cycle needs something, so it is in range. -/
theorem ReachesCycle.lt {i : Nat} (h : ReachesCycle deps i) : i < deps.length := by
  obtain ⟨k, hik, hcycle⟩ := h
  obtain ⟨j, hneeds, -⟩ := Relation.TransGen.head'_iff.mp (Relation.TransGen.trans_right hik hcycle)
  exact hneeds.lt_left

/-- In the end, exactly the indices that reach no cycle are placed. -/
theorem mem_placed_final_iff (deps : List (List Nat)) (i : Nat) :
    i ∈ (final deps).placed ↔ i < deps.length ∧ ¬ ReachesCycle deps i := by
  have hv := valid_final deps
  constructor
  · intro hi
    exact ⟨((hv.mem_iff i).mp hi).1, hv.not_reachesCycle hi⟩
  · rintro ⟨hi, hacyclic⟩
    exact (hv.mem_iff i).mpr ⟨hi, isDone_of_stuck (stuck_final deps) hi hacyclic⟩

/-! ### Front and tail -/

/-- The indices at the beginning of a schedule that the passes placed. -/
def front (s : Schedule) : List Nat := s.order.take (s.order.length - s.drained)

/-- The front of a schedule is what the passes placed, in the order of placing. -/
theorem front_ofDeps (deps : List (List Nat)) :
    (ofDeps deps).front = (final deps).placed.reverse := by
  have hlength := congrArg List.length (order_eq_append_tail deps)
  rw [List.length_append, length_tail] at hlength
  rw [front, hlength, Nat.add_sub_cancel, order_eq_append_tail, List.take_left]

/-- A schedule is its front and then its tail. -/
theorem order_eq_front_append_tail (deps : List (List Nat)) :
    (ofDeps deps).order = (ofDeps deps).front ++ (ofDeps deps).tail := by
  rw [front_ofDeps]
  exact order_eq_append_tail deps

/-- The front has the indices from which no cycle is reachable. -/
theorem mem_front_iff (deps : List (List Nat)) (i : Nat) :
    i ∈ (ofDeps deps).front ↔ i < deps.length ∧ ¬ ReachesCycle deps i := by
  rw [front_ofDeps, List.mem_reverse, mem_placed_final_iff]

/-- The tail has the indices from which a cycle is reachable. -/
theorem mem_tail_iff (deps : List (List Nat)) (i : Nat) :
    i ∈ (ofDeps deps).tail ↔ ReachesCycle deps i := by
  rw [tail_ofDeps, List.mem_filter, List.mem_range]
  have hplaced := mem_placed_final_iff deps i
  rw [(valid_final deps).mem_iff] at hplaced
  constructor
  · rintro ⟨hi, hfree⟩
    by_contra hacyclic
    rw [(hplaced.mpr ⟨hi, hacyclic⟩).2] at hfree
    cases hfree
  · intro hcycle
    refine ⟨hcycle.lt, ?_⟩
    rw [Bool.not_eq_true']
    apply Bool.eq_false_of_not_eq_true
    intro hdone
    exact (hplaced.mp ⟨hcycle.lt, hdone⟩).2 hcycle

/-- The passes find out which indices reach a cycle. -/
instance (deps : List (List Nat)) (i : Nat) : Decidable (ReachesCycle deps i) :=
  decidable_of_iff _ (mem_tail_iff deps i)

/-- The tail of a schedule ascends. -/
theorem pairwise_tail (deps : List (List Nat)) : (ofDeps deps).tail.Pairwise (· < ·) := by
  rw [tail_ofDeps]
  exact List.pairwise_lt_range.filter _

/-- Nothing is left over exactly if there is no cycle at all. -/
theorem drained_eq_zero_iff (deps : List (List Nat)) :
    (ofDeps deps).drained = 0 ↔ ∀ i, ¬ Relation.TransGen (Needs deps) i i := by
  rw [← length_tail, List.length_eq_zero_iff, List.eq_nil_iff_forall_not_mem]
  simp only [mem_tail_iff]
  constructor
  · intro hacyclic i hcycle
    exact hacyclic i ⟨i, .refl, hcycle⟩
  · rintro hacyclic i ⟨k, -, hcycle⟩
    exact hacyclic k hcycle

/-! ### What ends the passes -/

/-- Why no further pass was made. -/
inductive Ending where
  /-- Every index was placed. -/
  | complete
  /-- The last pass placed nothing. -/
  | idle
  /-- No more passes were allowed. -/
  | limit
  deriving DecidableEq, Repr

/-- Make passes as long as indices are left and each pass places one, at most `fuel` of them. -/
def loop (deps : List (List Nat)) : (fuel : Nat) → (p : Progress) → Progress × Ending
  | 0, p => (p, .limit)
  | fuel + 1, p =>
    if p.placed.length = deps.length then (p, .complete)
    else
      let next := pass deps p
      if next.placed.length = p.placed.length then (next, .idle) else loop deps fuel next

/-- A pass over indices that are all placed places none. -/
theorem length_pass_of_complete {p : Progress} (hp : p.Valid deps)
    (h : p.placed.length = deps.length) : (pass deps p).placed.length = p.placed.length :=
  Nat.le_antisymm (h ▸ (valid_pass hp).length_le) (length_le_visits p)

/-- Whether a loop stops as soon as everything is placed, or one idle pass later, makes no
difference to what it places. -/
theorem fst_loop (fuel : Nat) {p : Progress} (hp : p.Valid deps) :
    (loop deps fuel p).1 = passes deps fuel p := by
  induction fuel generalizing p with
  | zero => rfl
  | succ fuel ih =>
      simp only [loop, passes]
      by_cases hcomplete : p.placed.length = deps.length
      · -- the loop stops here, the passes make one more, which changes nothing
        have hidle := length_pass_of_complete hp hcomplete
        rw [if_pos hcomplete, if_pos hidle]
        exact (visits_of_length_eq hidle).1.symm
      · rw [if_neg hcomplete]
        by_cases hidle : (pass deps p).placed.length = p.placed.length
        · rw [if_pos hidle, if_pos hidle]
        · rw [if_neg hidle, if_neg hidle]
          exact ih (valid_pass hp)

/-- Every pass but the last places an index, so the limit is not met if it exceeds the count of
indices left. -/
theorem snd_loop_ne_limit (fuel : Nat) {p : Progress} (hp : p.Valid deps)
    (hfuel : deps.length < fuel + p.placed.length) : (loop deps fuel p).2 ≠ .limit := by
  induction fuel generalizing p with
  | zero =>
      have := hp.length_le
      omega
  | succ fuel ih =>
      simp only [loop]
      split
      · exact Ending.noConfusion
      · split
        · exact Ending.noConfusion
        · next hplaces =>
          apply ih (valid_pass hp)
          have hle : p.placed.length ≤ (pass deps p).placed.length := length_le_visits p
          omega

/-! ### The whole schedule -/

/-- **The tail of a schedule is its cyclic part.** Every index is scheduled once. In the front an
index comes behind all it needs; the tail has the indices from which a cycle is reachable, in
increasing order. So nothing is left for the tail, and there is no warning, exactly if there is no
cycle. The passes that find this out end because nothing is left or because nothing can be placed,
and never because of their limit. -/
theorem drains_cyclic_part (deps : List (List Nat)) :
    (ofDeps deps).order.Perm (List.range deps.length) ∧
      (ofDeps deps).order = (ofDeps deps).front ++ (ofDeps deps).tail ∧
      (ofDeps deps).front.length = deps.length - (ofDeps deps).drained ∧
      (ofDeps deps).tail.length = (ofDeps deps).drained ∧
      (∀ before i after, (ofDeps deps).front = before ++ i :: after → ∀ j, Needs deps i j →
        j ∈ before) ∧
      (∀ i, i ∈ (ofDeps deps).tail ↔ ReachesCycle deps i) ∧
      (ofDeps deps).tail.Pairwise (· < ·) ∧
      ((ofDeps deps).drained = 0 ↔ ∀ i, ¬ Relation.TransGen (Needs deps) i i) ∧
      (.cycleDrained (ofDeps deps).drained ∈ (ofDeps deps).events ↔ 0 < (ofDeps deps).drained) ∧
      ((ofDeps deps).events = [] ↔ (ofDeps deps).drained = 0) ∧
      (loop deps (passLimit deps.length) (.start deps.length)).1 =
        passes deps (passLimit deps.length) (.start deps.length) ∧
      (loop deps (passLimit deps.length) (.start deps.length)).2 ≠ .limit := by
  have hperm := order_perm_range deps
  have hsplit := order_eq_front_append_tail deps
  have hlength : (ofDeps deps).front.length = deps.length - (ofDeps deps).drained := by
    rw [front, List.length_take, hperm.length_eq, List.length_range]
    exact Nat.min_eq_left (Nat.sub_le _ _)
  refine ⟨hperm, hsplit, hlength, length_tail deps, ?_, mem_tail_iff deps, pairwise_tail deps,
    drained_eq_zero_iff deps, ?_, ?_, fst_loop _ (Progress.valid_start deps),
    snd_loop_ne_limit _ (Progress.valid_start deps) (lt_passLimit_add _)⟩
  · intro before i after hfront j hij
    have hi : i ∈ (ofDeps deps).front := by
      rw [hfront]
      exact List.mem_append_right _ List.mem_cons_self
    apply mem_of_order_eq ((mem_front_iff deps i).mp hi).2 hij
    rw [hsplit, hfront, List.append_assoc, List.cons_append]
  · rw [events, Nat.pos_iff_ne_zero]
    split <;> simp [*]
  · rw [events]
    split <;> simp [*]

/-- Index 0 waits for index 3; indices 1 and 2 wait for each other, and index 4 for them. -/
theorem two_cycle_drained :
    (ofDeps [[3], [2], [1, 0], [], [0, 1]]).front = [3] ++ 0 :: [] ∧
    Needs [[3], [2], [1, 0], [], [0, 1]] 0 3 ∧
      3 ∈ [3] ∧ (ofDeps [[3], [2], [1, 0], [], [0, 1]]).tail = [1, 2, 4] ∧
      ReachesCycle [[3], [2], [1, 0], [], [0, 1]] 4 ∧
      .cycleDrained 3 ∈ (ofDeps [[3], [2], [1, 0], [], [0, 1]]).events := by
  have hfront : (ofDeps [[3], [2], [1, 0], [], [0, 1]]).front = [3] ++ 0 :: [] := by decide
  have hneeds : Needs [[3], [2], [1, 0], [], [0, 1]] 0 3 := ⟨by decide, [3], rfl, by decide⟩
  obtain ⟨-, -, -, -, hfirst, hcyclic, -, -, hwarned, -⟩ :=
    drains_cyclic_part [[3], [2], [1, 0], [], [0, 1]]
  exact ⟨hfront, hneeds, hfirst [3] 0 [] hfront 3 hneeds, by decide, (hcyclic 4).mp (by decide),
    hwarned.mpr (by decide)⟩

end Schedule

end ShaderPack
