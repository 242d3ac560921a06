/-!
# Dictionaries in insertion order

A `Dict κ α` maps keys to values and remembers the order in which its keys first came in. Giving a
known key a new value keeps the key's place. Programs are read into such dictionaries, so that
declarations are handled, numbered and written back in the order in which they were declared.

Main statements: `keys_insert` (inserting adds a key at the end or leaves the keys as they are) and
`find?_insert` (inserting changes the answer for that one key).
-/

namespace ShaderPack

/-- A finite map that lists its entries by the time their keys first came in. -/
structure Dict (κ α : Type) where
  /-- The entries, oldest key first. -/
  entries : List (κ × α)
  /-- No key has two entries. -/
  nodup : (entries.map Prod.fst).Nodup

namespace Dict

variable {κ α : Type}

/-- The dictionary without entries. -/
def empty : Dict κ α := ⟨[], List.nodup_nil⟩

instance : Inhabited (Dict κ α) := ⟨empty⟩

/-- The keys, oldest first. -/
def keys (d : Dict κ α) : List κ := d.entries.map Prod.fst

/-- The values, in the order of their keys. -/
def values (d : Dict κ α) : List α := d.entries.map Prod.snd

/-- The number of entries. -/
def size (d : Dict κ α) : Nat := d.entries.length

/-- Whether there is no entry. -/
def isEmpty (d : Dict κ α) : Bool := d.entries.isEmpty

variable [DecidableEq κ]

/-- The value of a key, if it has one. -/
def find? (d : Dict κ α) (k : κ) : Option α :=
  (d.entries.find? fun e => e.1 = k).map Prod.snd

/-- The place of a key among the keys, counted from zero. -/
def position? (d : Dict κ α) (k : κ) : Option Nat := d.keys.idxOf? k

/-- Whether the key has a value. -/
def contains (d : Dict κ α) (k : κ) : Bool := d.keys.contains k

/-- Put `v` in place of the value of `k` in a list of entries. -/
def replaceIn (k : κ) (v : α) (es : List (κ × α)) : List (κ × α) :=
  es.map fun e => if e.1 = k then (e.1, v) else e

/-- Giving a key a new value leaves all keys in their places. -/
@[simp] theorem map_fst_replaceIn (k : κ) (v : α) (es : List (κ × α)) :
    (replaceIn k v es).map Prod.fst = es.map Prod.fst := by
  simp only [replaceIn, List.map_map]
  apply List.map_congr_left
  intro e _
  simp only [Function.comp_apply]
  split <;> rfl

/-- Give `k` the value `v`: in place if the key is known, at the end if it is new. -/
def insert (d : Dict κ α) (k : κ) (v : α) : Dict κ α :=
  if h : k ∈ d.entries.map Prod.fst then
    ⟨replaceIn k v d.entries, by simpa using d.nodup⟩
  else
    ⟨d.entries ++ [(k, v)], by
      rw [List.map_append, List.nodup_append]
      refine ⟨d.nodup, by simp, ?_⟩
      rintro a ha b hb rfl
      simp only [List.map_cons, List.map_nil, List.mem_singleton] at hb
      exact h (hb ▸ ha)⟩

/-- Insert the pairs one after another; a later pair for the same key wins. -/
def ofList (es : List (κ × α)) : Dict κ α :=
  es.foldl (fun d e => d.insert e.1 e.2) empty

/-- The keys after an insertion. -/
theorem keys_insert (d : Dict κ α) (k : κ) (v : α) :
    (d.insert k v).keys = if k ∈ d.keys then d.keys else d.keys ++ [k] := by
  unfold insert keys
  split <;> simp_all

/-- Looking up in a list of entries after a replacement. -/
theorem find?_replaceIn (k j : κ) (v : α) (es : List (κ × α)) (h : k ∈ es.map Prod.fst) :
    ((replaceIn k v es).find? fun e => e.1 = j).map Prod.snd =
      if j = k then some v else (es.find? fun e => e.1 = j).map Prod.snd := by
  induction es with
  | nil => simp at h
  | cons e es ih =>
    simp only [replaceIn, List.map_cons, List.find?_cons] at ih ⊢
    by_cases hk : e.1 = k
    · by_cases hj : j = k
      · simp [hk, hj]
      · have hne : ¬ k = j := fun h => hj h.symm
        simp only [hk, hj, hne, decide_false, if_true, if_false]
        by_cases hmem : k ∈ es.map Prod.fst
        · simpa [hj] using ih hmem
        · congr 1
          rw [List.map_congr_left (g := id), List.map_id]
          intro x hx
          have : x.1 ≠ k := fun hxk => hmem (List.mem_map.mpr ⟨x, hx, hxk⟩)
          simp [this]
    · have hmem : k ∈ es.map Prod.fst := by
        simp only [List.map_cons, List.mem_cons] at h
        exact h.resolve_left fun h => hk h.symm
      by_cases hj : e.1 = j
      · have : ¬ j = k := fun h => hk (hj.trans h)
        simp [hj, this]
      · simpa [hk, hj] using ih hmem

/-- The answer for a key after an insertion. -/
theorem find?_insert (d : Dict κ α) (k j : κ) (v : α) :
    (d.insert k v).find? j = if j = k then some v else d.find? j := by
  unfold insert find?
  split
  · next h => exact find?_replaceIn k j v d.entries h
  · next h =>
    simp only [List.find?_append]
    by_cases hj : j = k
    · have hnone : d.entries.find? (fun e => e.1 = j) = none := by
        rw [List.find?_eq_none]
        intro e he
        have : e.1 ≠ k := fun hek => h (List.mem_map.mpr ⟨e, he, hek⟩)
        simpa [hj] using this
      simp [hj ▸ hnone, hj]
    · have : ¬ k = j := fun h => hj h.symm
      simp [hj, this]

end Dict

end ShaderPack
