import ShaderPack.Container.BlobStore
import ShaderPack.Modules.Table
import Mathlib.Algebra.Group.Nat.Defs
import Mathlib.Data.List.Nodup

/-!
# What the tables keep

The blob store and the module table only ever grow, and what they say about an id stays as it is.

* `BlobStore.Keeps`: a later store has every blob of an earlier one under the same id
  (`BlobStore.keeps_of_add?`), and a new blob is there under the id that storing it gave
  (`BlobStore.blob?_of_add?`).
* `ModuleTable.WellFormed`: modules know their place, depend on earlier ones only, and no two have
  the same kind and name. Registering keeps this (`ModuleTable.WellFormed.push`); in such a table,
  looking up a kind and a name finds the one module that has them
  (`ModuleTable.lookup_eq_some_iff`).
-/

namespace ShaderPack

/-! ### Blobs -/

namespace BlobStore

variable {s s' s'' : BlobStore} {blob : Bytes} {id : UInt32}

/-- What storing a blob does. -/
theorem add?_eq_some (h : s.add? blob = some (s', id)) :
    s.byteCount + blob.length ≤ limit ∧ s'.pool.toList = s.pool.toList ++ blob ∧
      s'.spans = s.spans.push ⟨UInt32.ofNat s.byteCount, UInt32.ofNat blob.length⟩ ∧
      id = UInt32.ofNat s.count := by
  unfold add? at h
  split at h
  · next hle =>
    cases h
    exact ⟨hle, Array.toList_appendList, rfl, rfl⟩
  · cases h

theorem count_of_add? (h : s.add? blob = some (s', id)) : s'.count = s.count + 1 := by
  obtain ⟨-, -, hspans, -⟩ := add?_eq_some h
  rw [count, hspans, Array.size_push]
  rfl

/-- A blob adds its bytes to the pool. -/
theorem byteCount_of_add? (h : s.add? blob = some (s', id)) :
    s'.byteCount = s.byteCount + blob.length := by
  obtain ⟨-, hpool, -, -⟩ := add?_eq_some h
  rw [byteCount, ← Array.length_toList, hpool, List.length_append, Array.length_toList]
  rfl

/-- A slice of the pool, told by lists. -/
theorem slice_eq (s : BlobStore) (span : Span) :
    s.slice span = (s.pool.toList.drop span.offset.toNat).take span.length.toNat := by
  rw [slice, Array.toList_extract, List.extract_eq_take_drop, Nat.add_sub_cancel_left]

theorem byteCount_eq (s : BlobStore) : s.byteCount = s.pool.toList.length := rfl

/-- A blob is found exactly if its span is there and lies in the pool. -/
theorem blob?_eq_some_iff {code : Bytes} : s.blob? id = some code ↔
    ∃ span, s.span? id = some span ∧ span.offset.toNat + span.length.toNat ≤ s.byteCount ∧
      s.slice span = code := by
  unfold blob?
  cases hspan : s.span? id with
  | none => simp
  | some span =>
      rw [Option.bind_eq_bind, Option.bind_some]
      by_cases hle : span.offset.toNat + span.length.toNat ≤ s.byteCount
      · simp [hle]
      · simp [hle]

/-- Every blob of `s` is a blob of `s'`, with the same id. -/
def Keeps (s s' : BlobStore) : Prop :=
  ∀ id code, s.blob? id = some code → s'.blob? id = some code

theorem Keeps.refl (s : BlobStore) : s.Keeps s := fun _ _ h => h

/-- Keeping blobs goes on from store to store. -/
theorem Keeps.trans (h : s.Keeps s') (h' : s'.Keeps s'') : s.Keeps s'' :=
  fun id code hcode => h' id code (h id code hcode)

/-- Storing a blob leaves the places of the others as they are. -/
theorem span?_add? (h : s.add? blob = some (s', id)) {i : UInt32} {span : Span}
    (hspan : s.span? i = some span) : s'.span? i = some span := by
  obtain ⟨-, -, hspans, -⟩ := add?_eq_some h
  have hi : i.toNat < s.spans.size := (Array.getElem?_eq_some_iff.mp hspan).1
  rw [span?, hspans, Array.getElem?_push_lt hi, ← hspan, span?, Array.getElem?_eq_getElem hi]

/-- Storing a blob leaves what is in the pool as it is. -/
theorem slice_of_add? (h : s.add? blob = some (s', id)) {span : Span}
    (hle : span.offset.toNat + span.length.toNat ≤ s.byteCount) : s'.slice span = s.slice span := by
  obtain ⟨-, hpool, -, -⟩ := add?_eq_some h
  rw [byteCount_eq] at hle
  rw [slice_eq, slice_eq, hpool, List.drop_append_of_le_length (by omega),
    List.take_append_of_le_length (by rw [List.length_drop]; omega)]

/-- Storing a blob leaves the others as they are: their spans lie in the part of the pool that was
there before. -/
theorem keeps_of_add? (h : s.add? blob = some (s', id)) : s.Keeps s' := by
  intro i code hcode
  obtain ⟨span, hspan, hle, hslice⟩ := blob?_eq_some_iff.mp hcode
  refine blob?_eq_some_iff.mpr ⟨span, span?_add? h hspan, ?_, ?_⟩
  · rw [byteCount_of_add? h]
    exact Nat.le_add_right_of_le hle
  · rw [slice_of_add? h hle, hslice]

/-- The span of a blob that was just stored. -/
theorem span?_of_add? (h : s.add? blob = some (s', id)) (hcount : s.count < 2 ^ 32) :
    s'.span? id = some ⟨UInt32.ofNat s.byteCount, UInt32.ofNat blob.length⟩ := by
  obtain ⟨-, -, hspans, rfl⟩ := add?_eq_some h
  have hid : (UInt32.ofNat s.count).toNat = s.spans.size := UInt32.toNat_ofNat_of_lt' hcount
  rw [span?, hid, hspans, Array.getElem?_push_size]

/-- The span of a blob that was just stored has the blob. -/
theorem slice_added (h : s.add? blob = some (s', id)) :
    s'.slice ⟨UInt32.ofNat s.byteCount, UInt32.ofNat blob.length⟩ = blob := by
  obtain ⟨hle, hpool, -, -⟩ := add?_eq_some h
  rw [limit, UInt32.size] at hle
  have hoffset : (UInt32.ofNat s.byteCount).toNat = s.byteCount :=
    UInt32.toNat_ofNat_of_lt' (by rw [UInt32.size]; omega)
  have hlength : (UInt32.ofNat blob.length).toNat = blob.length :=
    UInt32.toNat_ofNat_of_lt' (by rw [UInt32.size]; omega)
  rw [slice_eq, hoffset, hlength, hpool, byteCount_eq, List.drop_left, List.take_length]

/-- A blob that was just stored is there under its id. -/
theorem blob?_of_add? (h : s.add? blob = some (s', id)) (hcount : s.count < 2 ^ 32) :
    s'.blob? id = some blob := by
  refine blob?_eq_some_iff.mpr ⟨_, span?_of_add? h hcount, ?_, slice_added h⟩
  rw [byteCount_of_add? h]
  exact Nat.add_le_add (Nat.mod_le _ _) (Nat.mod_le _ _)

end BlobStore

/-! ### Modules -/

/-- The kind and the name of a module. -/
def Module.key (m : Module) : Kind × String := (m.kind, m.name)

namespace ModuleTable

variable {t t' t'' : ModuleTable} {m : Module} {id : UInt32} {kind : Kind} {name : String}

/-- The kinds and names of the modules, in the order of their ids. -/
def keys (t : ModuleTable) : List (Kind × String) := t.modules.toList.map Module.key

/-- What registering keeps: modules know their place, depend on earlier ones only, and no two have
the same kind and name. -/
structure WellFormed (t : ModuleTable) : Prop where
  id_eq : ∀ (i : Nat) (m : Module), t.modules[i]? = some m → m.id.toNat = i
  deps_lt : ∀ m ∈ t.modules, ∀ d ∈ m.deps, d < m.id
  nodup : t.keys.Nodup

theorem wellFormed_empty : WellFormed empty where
  id_eq i m h := by simp [empty] at h
  deps_lt m hm := by simp [empty] at hm
  nodup := List.nodup_nil

/-- A module is found under the id that is its place. -/
theorem get?_eq_some_iff :
    t.get? id = some m ↔ ∃ h : id.toNat < t.modules.size, t.modules[id.toNat] = m :=
  Array.getElem?_eq_some_iff

/-- An id under which a module is found is below the count. -/
theorem lt_count_of_get? (h : t.get? id = some m) : id.toNat < t.count :=
  (get?_eq_some_iff.mp h).1

/-- Under every id below the count a module is found. -/
theorem exists_get?_of_lt (h : id.toNat < t.count) : ∃ m, t.get? id = some m :=
  ⟨_, Array.getElem?_eq_getElem h⟩

theorem mem_of_get? (h : t.get? id = some m) : m ∈ t.modules := Array.mem_of_getElem? h

/-- A module is found under its own id. -/
theorem WellFormed.id_of_get? (ht : t.WellFormed) (h : t.get? id = some m) : m.id = id :=
  UInt32.toNat_inj.mp (ht.id_eq _ _ h)

/-- Every module of a well-formed table is found. -/
theorem WellFormed.get?_of_mem (ht : t.WellFormed) (h : m ∈ t.modules) : t.get? m.id = some m := by
  obtain ⟨i, hi, rfl⟩ := Array.mem_iff_getElem.mp h
  have hat : t.modules[i]? = some t.modules[i] := Array.getElem?_eq_getElem hi
  rw [get?, ht.id_eq i _ hat]
  exact hat

/-- Everything that a registered module depends on is registered, and earlier. -/
theorem WellFormed.dep_lt (ht : t.WellFormed) (h : t.get? id = some m) {d : UInt32}
    (hd : d ∈ m.deps) : d.toNat < id.toNat := by
  have := ht.deps_lt m (mem_of_get? h) d hd
  rwa [ht.id_of_get? h, UInt32.lt_iff_toNat_lt] at this

/-- A kind and a name are looked up in vain exactly if no module has them. -/
theorem lookup_eq_none_iff : t.lookup kind name = none ↔ (kind, name) ∉ t.keys := by
  simp only [lookup, Option.map_eq_none_iff, Array.find?_eq_none, keys, List.mem_map,
    Array.mem_toList_iff, Module.key, Prod.mk.injEq, not_exists, not_and, Bool.and_eq_true,
    decide_eq_true_eq]

/-- Looking up a kind and a name finds the module that has them. -/
theorem lookup_eq_some_iff (ht : t.WellFormed) :
    t.lookup kind name = some id ↔ ∃ m, t.get? id = some m ∧ m.key = (kind, name) := by
  constructor
  · intro h
    obtain ⟨m, hfind, rfl⟩ := Option.map_eq_some_iff.mp h
    have hkey := Array.find?_some hfind
    simp only [Bool.and_eq_true, decide_eq_true_eq] at hkey
    exact ⟨m, ht.get?_of_mem (Array.mem_of_find?_eq_some hfind), Prod.ext hkey.1 hkey.2⟩
  · rintro ⟨m, hget, hkey⟩
    have hmem : (kind, name) ∈ t.keys :=
      List.mem_map.mpr ⟨m, Array.mem_toList_iff.mpr (mem_of_get? hget), hkey⟩
    cases hlookup : t.lookup kind name with
    | none => exact absurd hmem (lookup_eq_none_iff.mp hlookup)
    | some id' =>
        obtain ⟨m', hfind, rfl⟩ := Option.map_eq_some_iff.mp hlookup
        have hkey' := Array.find?_some hfind
        simp only [Bool.and_eq_true, decide_eq_true_eq] at hkey'
        -- two modules with the same key are the same module
        have hsame : m' = m := List.inj_on_of_nodup_map ht.nodup
          (Array.mem_toList_iff.mpr (Array.mem_of_find?_eq_some hfind))
          (Array.mem_toList_iff.mpr (mem_of_get? hget)) (hkey ▸ Prod.ext hkey'.1 hkey'.2)
        rw [hsame, ht.id_of_get? hget]

/-- Registering a module keeps the table well formed. -/
theorem WellFormed.push (ht : t.WellFormed) (hid : m.id.toNat = t.count) (hkey : m.key ∉ t.keys)
    (hdeps : ∀ d ∈ m.deps, d < m.id) : WellFormed ⟨t.modules.push m⟩ where
  id_eq i m' h := by
    rw [Array.getElem?_push] at h
    split at h
    · next hi =>
      cases h
      rw [hi]
      exact hid
    · exact ht.id_eq i m' h
  deps_lt m' hm' := by
    rcases Array.mem_push.mp hm' with hm' | rfl
    · exact ht.deps_lt m' hm'
    · exact hdeps
  nodup := by
    have hkeys : keys ⟨t.modules.push m⟩ = t.keys ++ [m.key] := by simp [keys]
    rw [hkeys]
    exact List.nodup_append.mpr ⟨ht.nodup, List.nodup_singleton _, fun a ha b hb hab =>
      hkey (List.mem_singleton.mp hb ▸ hab ▸ ha)⟩

/-- What registering a module does. -/
theorem register_eq_ok {nameId blob offset : UInt32} {deps : List UInt32} :
    t.register kind name nameId blob offset deps = .ok (t', id) ↔
      (kind, name) ∉ t.keys ∧ id = UInt32.ofNat t.count ∧ (∀ d ∈ deps, d < id) ∧
        t' = ⟨t.modules.push ⟨id, kind, name, nameId, blob, offset, deps⟩⟩ := by
  rw [← lookup_eq_none_iff]
  unfold register
  cases hlookup : t.lookup kind name with
  | some _ => simp
  | none =>
      simp only [Option.isSome_none, Bool.false_eq_true, if_false, true_and]
      by_cases hdeps : deps.all fun d => d < UInt32.ofNat t.count
      · simp only [hdeps, if_true, Except.ok.injEq, Prod.mk.injEq]
        simp only [List.all_eq_true, decide_eq_true_eq] at hdeps
        constructor
        · rintro ⟨rfl, rfl⟩
          exact ⟨rfl, hdeps, rfl⟩
        · rintro ⟨rfl, -, rfl⟩
          exact ⟨rfl, rfl⟩
      · simp only [hdeps, Bool.false_eq_true, if_false, reduceCtorEq, false_iff]
        simp only [List.all_eq_true, decide_eq_true_eq] at hdeps
        rintro ⟨rfl, h, -⟩
        exact hdeps h

/-- The modules of `t` are the first modules of `t'`. -/
def Extends (t t' : ModuleTable) : Prop := t.modules.toList <+: t'.modules.toList

theorem Extends.refl (t : ModuleTable) : t.Extends t := List.prefix_rfl

/-- Growing goes on from table to table. -/
theorem Extends.trans (h : t.Extends t') (h' : t'.Extends t'') : t.Extends t'' :=
  List.IsPrefix.trans h h'

/-- A module that comes in leaves the others in place. -/
theorem extends_push (t : ModuleTable) (m : Module) : t.Extends ⟨t.modules.push m⟩ :=
  ⟨[m], by simp⟩

/-- What is found under an id is found in a table that has grown. -/
theorem Extends.get? (h : t.Extends t') (hget : t.get? id = some m) : t'.get? id = some m := by
  obtain ⟨rest, hrest⟩ := h
  rw [ModuleTable.get?, ← Array.getElem?_toList] at hget ⊢
  rw [← hrest]
  exact List.getElem?_append_left (List.getElem?_eq_some_iff.mp hget).1 ▸ hget

/-- So is what is looked up by kind and name. -/
theorem Extends.lookup (h : t.Extends t') (ht : t.WellFormed) (ht' : t'.WellFormed)
    (hlookup : t.lookup kind name = some id) : t'.lookup kind name = some id := by
  obtain ⟨m, hget, hkey⟩ := (lookup_eq_some_iff ht).mp hlookup
  exact (lookup_eq_some_iff ht').mpr ⟨m, h.get? hget, hkey⟩

end ModuleTable

end ShaderPack
