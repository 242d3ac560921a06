import ShaderPack.Proofs.Links

/-!
# Any history of strings

A string may be interned again after any number of others, and its id must be the one that it got
first. A `StringTable` finds a string by searching. A table with an index (`IndexedStrings`) has its
strings in two places, which change one after the other: the id of a string is found in the index,
and the string of an id in the array.

* `StringTable.toList_ofHistory`, `StringTable.pairwise_ofHistory`: a table has every string once,
  by first call.
* `StringTable.Issued.get?_eq`: an id that was given for a string stands for it from then on.
* `StringTable.get?_inj`: a string does not stand under two ids. With the above, calls at different
  times can be compared through the table that comes last.
* `IndexedStrings.Agrees`: index and array say the same as a search
  (`IndexedStrings.Agrees.submit`).
* `StringTable.interned_exact`: the statement about all histories.
-/

namespace ShaderPack

namespace StringTable

variable {t : StringTable} {s s' : String} {id id' : UInt32} {calls : List String}

/-- The table after a history of calls, each with the string that it interns. -/
def ofHistory (calls : List String) : StringTable := calls.foldl (fun t s => (t.intern s).1) empty

/-- One of the calls interned `s`, and `id` was its answer. -/
def Issued (calls : List String) (s : String) (id : UInt32) : Prop :=
  ∃ before, before ++ [s] <+: calls ∧ ((ofHistory before).intern s).2 = id

/-! ### One call -/

/-- What a call does: the string is found, or it is added at the end. -/
theorem intern_cases (t : StringTable) (s : String) :
    (s ∈ t.strings ∧ ∃ i, t.strings.idxOf? s = some i ∧ t.intern s = (t, UInt32.ofNat i)) ∨
      (s ∉ t.strings ∧ t.strings.idxOf? s = none ∧
        t.intern s = (⟨t.strings.push s⟩, UInt32.ofNat t.count)) := by
  unfold intern
  cases hs : t.strings.idxOf? s with
  | none => exact .inr ⟨Array.idxOf?_eq_none_iff.mp hs, rfl, rfl⟩
  | some i =>
      refine .inl ⟨?_, i, rfl, rfl⟩
      by_contra hnew
      rw [Array.idxOf?_eq_none_iff.mpr hnew] at hs
      cases hs

/-- A string is added at the end, unless it is there. -/
theorem toList_intern (t : StringTable) (s : String) : (t.intern s).1.strings.toList =
    if s ∈ t.strings then t.strings.toList else t.strings.toList ++ [s] := by
  obtain ⟨hmem, i, -, hsame⟩ | ⟨hnew, -, hpush⟩ := t.intern_cases s
  · rw [hsame, if_pos hmem]
  · rw [hpush, if_neg hnew]
    exact Array.toList_push

/-- If no string is stored twice, then none has two ids. -/
theorem get?_inj (ht : t.strings.toList.Nodup) (h : t.get? id = some s) (h' : t.get? id' = some s) :
    id = id' := by
  have hlt : id.toNat < t.strings.toList.length := (Array.getElem?_eq_some_iff.mp h).1
  refine UInt32.toNat_inj.mp ((List.getElem?_inj hlt ht).mp ?_)
  rw [Array.getElem?_toList, Array.getElem?_toList]
  exact h.trans h'.symm

/-- Where a string is found is the id under which it is stored. -/
theorem idxOf?_eq_some_iff (ht : t.strings.toList.Nodup) (hcount : t.count < 2 ^ 32) :
    (t.strings.idxOf? s).map UInt32.ofNat = some id ↔ t.get? id = some s := by
  have hself := t.get?_intern_self s hcount
  obtain ⟨-, i, hi, hsame⟩ | ⟨hnew, hnone, -⟩ := t.intern_cases s
  · rw [hsame] at hself
    rw [hi, Option.map_some, Option.some.injEq]
    exact ⟨fun h => h ▸ hself, get?_inj ht hself⟩
  · rw [hnone]
    exact ⟨nofun, fun h => absurd (Array.mem_of_getElem? h) hnew⟩

/-! ### Histories -/

/-- A history with one call more goes one step further. -/
theorem ofHistory_concat (calls : List String) (s : String) :
    ofHistory (calls ++ [s]) = ((ofHistory calls).intern s).1 := by
  rw [ofHistory, List.foldl_concat]
  rfl

/-- A table has the strings that were interned, without the repetitions. -/
theorem toList_ofHistory (calls : List String) :
    (ofHistory calls).strings.toList = calls.eraseDups := by
  induction calls using List.reverseRecOn with
  | nil => rfl
  | append_singleton calls s ih =>
      have hmem : s ∈ (ofHistory calls).strings ↔ s ∈ calls := by
        rw [← Array.mem_toList_iff, ih, List.mem_eraseDups]
      rw [ofHistory_concat, toList_intern, ih, List.eraseDups_append]
      by_cases hs : s ∈ calls
      · rw [if_pos (hmem.mpr hs)]
        simp [List.removeAll, hs]
      · rw [if_neg (hmem.not.mpr hs)]
        simp [List.removeAll, hs, List.eraseDups_cons]

/-- No string is in the table twice. -/
theorem nodup_ofHistory (calls : List String) : (ofHistory calls).strings.toList.Nodup := by
  rw [toList_ofHistory]
  exact (eraseDups_nodup calls).1

/-- There are no more strings than calls. -/
theorem count_ofHistory_le (calls : List String) : (ofHistory calls).count ≤ calls.length := by
  rw [count, ← Array.length_toList, toList_ofHistory]
  exact (eraseDups_nodup calls).2

/-- The strings in the table are those that were asked for. -/
theorem mem_ofHistory : s ∈ (ofHistory calls).strings ↔ s ∈ calls := by
  rw [← Array.mem_toList_iff, toList_ofHistory, List.mem_eraseDups]

/-- The strings of a table stand in the order of their first calls. -/
theorem pairwise_ofHistory (calls : List String) :
    (ofHistory calls).strings.toList.Pairwise fun a b => calls.idxOf a < calls.idxOf b := by
  induction calls using List.reverseRecOn with
  | nil => exact List.Pairwise.nil
  | append_singleton calls s ih =>
      have hcalled : ∀ a ∈ (ofHistory calls).strings.toList, a ∈ calls := fun a ha =>
        mem_ofHistory.mp (Array.mem_toList_iff.mp ha)
      -- one more call is the first one for no string but its own
      have hold : ∀ a ∈ (ofHistory calls).strings.toList, (calls ++ [s]).idxOf a = calls.idxOf a :=
        fun a ha =>
        List.idxOf_append_of_mem (hcalled a ha)
      have hpairs : (ofHistory calls).strings.toList.Pairwise fun a b =>
          (calls ++ [s]).idxOf a < (calls ++ [s]).idxOf b :=
        ih.imp_of_mem fun ha hb hlt => by rwa [hold _ ha, hold _ hb]
      rw [ofHistory_concat, toList_intern]
      split
      · exact hpairs
      · next hnew =>
        refine List.pairwise_append.mpr ⟨hpairs, List.pairwise_singleton _ _, fun a ha b hb => ?_⟩
        have hs : s ∉ calls := fun hs => hnew (mem_ofHistory.mpr hs)
        rw [List.mem_singleton.mp hb, hold a ha, List.idxOf_append_of_notMem hs]
        exact Nat.lt_add_right _ (List.idxOf_lt_length_iff.mpr (hcalled a ha))

/-! ### Ids -/

/-- An id stands for its string after the call that gave it, and after every call since. -/
theorem Issued.get?_eq (h : Issued calls s id) (hcalls : calls.length < 2 ^ 32) :
    (ofHistory calls).get? id = some s := by
  obtain ⟨before, ⟨later, rfl⟩, rfl⟩ := h
  have hcount : (ofHistory before).count < 2 ^ 32 := by
    refine Nat.lt_of_le_of_lt ((count_ofHistory_le before).trans ?_) hcalls
    rw [List.append_assoc, List.length_append]
    exact Nat.le_add_right _ _
  have hfirst : (ofHistory (before ++ [s])).get? ((ofHistory before).intern s).2 = some s := by
    rw [ofHistory_concat]
    exact get?_intern_self _ s hcount
  rw [ofHistory, List.foldl_append]
  exact List.foldlRecOn
    (motive := fun t : StringTable => t.get? ((ofHistory before).intern s).2 = some s) later _
    hfirst fun _ ht other _ => get?_intern other ht

/-- Every string that is asked for is given an id. -/
theorem exists_issued (h : s ∈ calls) : ∃ id, Issued calls s id := by
  obtain ⟨before, later, rfl⟩ := List.append_of_mem h
  exact ⟨_, before, ⟨later, (List.append_cons ..).symm⟩, rfl⟩

/-- Two calls get the same id exactly if they ask for the same string, whenever they come. -/
theorem Issued.eq_iff (h : Issued calls s id) (h' : Issued calls s' id')
    (hcalls : calls.length < 2 ^ 32) : id = id' ↔ s = s' := by
  have hs := h.get?_eq hcalls
  have hs' := h'.get?_eq hcalls
  constructor
  · rintro rfl
    exact Option.some.inj (hs.symm.trans hs')
  · rintro rfl
    exact get?_inj (nodup_ofHistory calls) hs hs'

/-- There is no other id than those below the count, and each of them was given to a call. -/
theorem exists_issued_iff (hcalls : calls.length < 2 ^ 32) :
    (∃ s, Issued calls s id) ↔ id.toNat < (ofHistory calls).count := by
  constructor
  · rintro ⟨s, h⟩
    exact (Array.getElem?_eq_some_iff.mp (h.get?_eq hcalls)).1
  · intro hlt
    have hget : (ofHistory calls).get? id = some _ := Array.getElem?_eq_getElem hlt
    obtain ⟨id', h⟩ := exists_issued (mem_ofHistory.mp (Array.mem_of_getElem? hget))
    obtain rfl := get?_inj (nodup_ofHistory calls) hget (h.get?_eq hcalls)
    exact ⟨_, h⟩

end StringTable

/-! ### Tables with an index -/

/-- A string table with an index of its strings. -/
structure IndexedStrings where
  /-- The strings, in the order of their ids. -/
  strings : Array String
  /-- The id of each string. -/
  ids : Dict String UInt32

namespace IndexedStrings

variable {x : IndexedStrings} {t : StringTable}

/-- The table without strings. -/
def empty : IndexedStrings := ⟨#[], .empty⟩

/-- Intern a string: look into the index, and if it is not there, add it to the array and then to
the index. -/
def intern (s : String) : StateM IndexedStrings UInt32 := do
  if let some id := (← get).ids.find? s then return id
  let id := UInt32.ofNat (← get).strings.size
  modify fun x => { x with strings := x.strings.push s }
  modify fun x => { x with ids := x.ids.insert s id }
  return id

/-- Ask for a string to be interned. Gives the id, and the table as it is left. -/
def submit (x : IndexedStrings) (s : String) : UInt32 × IndexedStrings := (intern s).run x

/-- The table after a history of calls. -/
def ofHistory (calls : List String) : IndexedStrings :=
  calls.foldl (fun x s => (x.submit s).2) empty

/-- The table has the strings of `t`, and its index says where searching in `t` finds them. -/
structure Agrees (x : IndexedStrings) (t : StringTable) : Prop where
  strings : x.strings = t.strings
  ids : ∀ s, x.ids.find? s = (t.strings.idxOf? s).map UInt32.ofNat

/-- What a call does to the array and the index, step by step, told at once. -/
theorem submit_eq (x : IndexedStrings) (s : String) : x.submit s =
    match x.ids.find? s with
    | some id => (id, x)
    | none =>
        (UInt32.ofNat x.strings.size,
          ⟨x.strings.push s, x.ids.insert s (UInt32.ofNat x.strings.size)⟩) := by
  simp only [submit, intern, StateT.run_bind, StateT.run_get, pure_bind]
  cases x.ids.find? s <;> rfl

/-- At the start the index has nothing, and there is nothing to find. -/
theorem agrees_empty : empty.Agrees .empty where
  strings := rfl
  ids s := by rw [StringTable.empty, Array.idxOf?_empty]; rfl

/-- Searching after a new string was added. -/
theorem idxOf?_push {strings : Array String} {s : String} (hnew : s ∉ strings) (other : String) :
    (strings.push s).idxOf? other =
      if other = s then some strings.size else strings.idxOf? other := by
  have hlist (xs : Array String) : xs.idxOf? other = xs.toList.findIdx? (· == other) := by
    rw [← List.idxOf?, ← List.idxOf?_toArray]
  rw [hlist, hlist, Array.toList_push, List.findIdx?_append]
  split
  · next heq =>
    subst heq
    rw [← hlist, Array.idxOf?_eq_none_iff.mpr hnew]
    simp
  · next hne => simp [Ne.symm hne]

/-- A call has the same answer in both tables, and index and array stay in step. -/
theorem Agrees.submit (h : x.Agrees t) (s : String) :
    (x.submit s).1 = (t.intern s).2 ∧ (x.submit s).2.Agrees (t.intern s).1 := by
  have hfind := h.ids s
  rw [submit_eq]
  obtain ⟨-, i, hi, hsame⟩ | ⟨hnew, hnone, hpush⟩ := t.intern_cases s
  · rw [hi] at hfind
    rw [hfind, hsame]
    exact ⟨rfl, h⟩
  · rw [hnone] at hfind
    rw [hfind, hpush, h.strings]
    refine ⟨rfl, rfl, fun other => ?_⟩
    change (x.ids.insert s _).find? other = ((t.strings.push s).idxOf? other).map UInt32.ofNat
    rw [Dict.find?_insert, idxOf?_push hnew, h.ids other]
    split <;> rfl

/-- The index agrees with a search after every history. -/
theorem agrees_ofHistory (calls : List String) :
    (ofHistory calls).Agrees (StringTable.ofHistory calls) := by
  induction calls using List.reverseRecOn with
  | nil => exact agrees_empty
  | append_singleton calls s ih =>
      rw [StringTable.ofHistory_concat, ofHistory, List.foldl_concat]
      exact (ih.submit s).2

end IndexedStrings

/-! ### All histories -/

namespace StringTable

/-- **Strings, whatever came before.** Take the table after any history of fewer than `2 ^ 32`
calls.

It has the strings that were interned, without the repetitions, in the order of their first calls.
The id that a call gave stands for the string of that call right after it and at every later point
of the history. Two calls, at any two points, gave the same id exactly if they interned the same
string. The ids that were given are those below the number of strings.

A table that keeps an index, and changes its array and its index one after the other, has the same
strings and gave the same answer to every call; its index and its array are inverse to each
other. -/
theorem interned_exact (calls : List String) (hcalls : calls.length < 2 ^ 32) :
    (ofHistory calls).strings.toList = calls.eraseDups ∧
    (∀ s, s ∈ (ofHistory calls).strings ↔ s ∈ calls) ∧
    (ofHistory calls).strings.toList.Pairwise (fun a b => calls.idxOf a < calls.idxOf b) ∧
    (∀ before s now, before ++ [s] <+: now → now <+: calls →
      (ofHistory now).get? ((ofHistory before).intern s).2 = some s) ∧
    (∀ s s' id id', Issued calls s id → Issued calls s' id' → (id = id' ↔ s = s')) ∧
    (∀ id : UInt32, (∃ s, Issued calls s id) ↔ id.toNat < (ofHistory calls).count) ∧
    (IndexedStrings.ofHistory calls).strings = (ofHistory calls).strings ∧
    (∀ s id, (IndexedStrings.ofHistory calls).ids.find? s = some id ↔
      (ofHistory calls).get? id = some s) ∧
    ∀ before s, before ++ [s] <+: calls →
      ((IndexedStrings.ofHistory before).submit s).1 = ((ofHistory before).intern s).2 := by
  have hindex := IndexedStrings.agrees_ofHistory calls
  have hcount : (ofHistory calls).count < 2 ^ 32 :=
    Nat.lt_of_le_of_lt (count_ofHistory_le calls) hcalls
  refine ⟨toList_ofHistory calls, fun s => mem_ofHistory, pairwise_ofHistory calls, ?_,
    fun s s' id id' h h' => h.eq_iff h' hcalls, fun id => exists_issued_iff hcalls, hindex.strings,
    ?_, ?_⟩
  · intro before s now hbefore hnow
    have hissued : Issued now s ((ofHistory before).intern s).2 := ⟨before, hbefore, rfl⟩
    exact hissued.get?_eq (Nat.lt_of_le_of_lt hnow.length_le hcalls)
  · intro s id
    rw [hindex.ids]
    exact idxOf?_eq_some_iff (nodup_ofHistory calls) hcount
  · intro before s _
    exact ((IndexedStrings.agrees_ofHistory before).submit s).1

/-- Names with repetitions, one of them empty. -/
def sampleNames : List String := ["common", "shader", "common", "", "shader", "post"]

/-- A string that comes again has the id of its first time, the empty string has one too, and ids
end with the count of different strings. -/
theorem sampleNames_interned :
    (ofHistory sampleNames).strings.toList = ["common", "shader", "", "post"] ∧
    ((ofHistory ["common"]).intern "shader").2 =
      ((ofHistory ["common", "shader", "common", ""]).intern "shader").2 ∧
    ((ofHistory ["common"]).intern "shader").2 ≠
      ((ofHistory ["common", "shader", "common"]).intern "").2 ∧
    (ofHistory sampleNames).get? ((ofHistory ["common"]).intern "shader").2 = some "shader" ∧
    (∃ s, Issued sampleNames s 3) ∧ (¬ ∃ s, Issued sampleNames s 4) ∧
    (IndexedStrings.ofHistory sampleNames).ids.find? "" = some 2 := by
  obtain ⟨hstrings, -, -, hget, hsame, hids, -, hindex, -⟩ := interned_exact sampleNames (by decide)
  have hnames : (ofHistory sampleNames).strings.toList = ["common", "shader", "", "post"] :=
    hstrings.trans rfl
  have hcount : (ofHistory sampleNames).count = 4 := congrArg List.length hnames
  have hfirst : ["common"] ++ ["shader"] <+: sampleNames := ⟨["common", "", "shader", "post"], rfl⟩
  have hagain : ["common", "shader", "common", ""] ++ ["shader"] <+: sampleNames := ⟨["post"], rfl⟩
  have hempty : ["common", "shader", "common"] ++ [""] <+: sampleNames := ⟨["shader", "post"], rfl⟩
  refine ⟨hnames, ?_, ?_, hget _ _ _ hfirst (List.prefix_refl _), ?_, ?_, ?_⟩
  · exact (hsame _ _ _ _ ⟨_, hfirst, rfl⟩ ⟨_, hagain, rfl⟩).mpr rfl
  · exact (hsame _ _ _ _ ⟨_, hfirst, rfl⟩ ⟨_, hempty, rfl⟩).not.mpr (by decide)
  · exact (hids 3).mpr (by rw [hcount]; decide)
  · exact (hids 4).not.mpr (by rw [hcount]; decide)
  · refine (hindex "" 2).mpr ?_
    rw [get?, ← Array.getElem?_toList, hnames]
    rfl

end StringTable

end ShaderPack
