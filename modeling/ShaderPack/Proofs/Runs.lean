import ShaderPack.Proofs.Renaming
import ShaderPack.Proofs.ScheduleOrder
import ShaderPack.Proofs.Steps

/-!
# What a run keeps

An assembly takes in declarations one after another, none of them twice. `Assembly.Sound a done`
says that the tables of `a` fit together, and that what is in them comes from the declarations in
`done`; it also bounds the tables by the number of these declarations, so that no 32-bit number
wraps around. `Assembly.Extends a b` says that what `a` has stored is in `b` as well.

* `Change.sound`, `Change.extends`: a step keeps the one and gives the other.
* `run_induction`: what steps keep, runs keep; `sound_run` is the case of these two, and `run_split`
  looks at one declaration on the way.
* `Program.Run`: the two runs of which the assembly of a program consists, one over the fragments in
  the order of the schedule and one over the shader modules; `Run.sound_fragments` and
  `Run.sound_shaderModules` are what is kept by the time each of them ends.
-/

namespace ShaderPack

/-! ### Storing code for an instruction -/

namespace Setting.Issues

variable {s : Setting} {c : Container} {code : Bytes} {module? : Option UInt32}
  {source : CodeSource} {blobs : BlobStore}

/-- Getting code ready for a handle keeps the blobs that are there. -/
theorem keeps (h : s.Issues c code module? source blobs) : c.blobs.Keeps blobs := by
  cases h with
  | module => exact .refl _
  | blob _ hadded => exact BlobStore.keeps_of_add? hadded

/-- It stores one blob at most. -/
theorem count_le (h : s.Issues c code module? source blobs) : blobs.count ≤ c.blobs.count + 1 := by
  cases h with
  | module => exact Nat.le_succ _
  | blob _ hadded => exact Nat.le_of_eq (BlobStore.count_of_add? hadded)

end Setting.Issues

namespace ModuleTable

variable {t : ModuleTable} {m : Module} {kind : Kind} {name : String}

@[simp] theorem keys_push (t : ModuleTable) (m : Module) :
    keys ⟨t.modules.push m⟩ = t.keys ++ [m.key] := by
  simp [keys]

@[simp] theorem count_push (t : ModuleTable) (m : Module) :
    count ⟨t.modules.push m⟩ = t.count + 1 := by
  simp [count]

theorem count_eq_length_keys (t : ModuleTable) : t.count = t.keys.length := by
  simp [count, keys]

/-- A module that comes in is found under the id behind the last, and the others are found as
before. -/
theorem get?_push (t : ModuleTable) (m : Module) (id : UInt32) :
    get? ⟨t.modules.push m⟩ id = if id.toNat = t.count then some m else t.get? id := by
  rw [get?, get?, Array.getElem?_push]
  rfl

/-- Another module that is added does not matter to a kind and a name. -/
theorem lookup_push_of_ne (h : m.key ≠ (kind, name)) :
    lookup ⟨t.modules.push m⟩ kind name = t.lookup kind name := by
  have hother : ¬ (m.kind = kind && m.name = name) = true := by
    simpa [Module.key] using h
  rw [lookup, lookup, Array.find?_push, if_neg hother, Option.or_none]

/-- Looking up a kind and a name after a module was added. -/
theorem lookup_push (hwf : WellFormed ⟨t.modules.push m⟩) :
    lookup ⟨t.modules.push m⟩ kind name =
      if m.key = (kind, name) then some m.id else t.lookup kind name := by
  split
  · next hkey =>
    have hm : m ∈ (t.modules.push m) := Array.mem_push_self
    exact (lookup_eq_some_iff hwf).mpr ⟨m, hwf.get?_of_mem hm, hkey⟩
  · next hkey => exact lookup_push_of_ne hkey

end ModuleTable

/-! ### Entering a module -/

namespace Enters

variable {t : ModuleTable} {c : Container} {kind : Kind} {name : String} {own : Bytes}
  {deps : List UInt32} {m : Module} {blobs : BlobStore}

/-- While there are ids left, a new module has its place as id, and the table stays well formed. -/
theorem wellFormed (hm : Enters t c kind name own deps m blobs) (ht : t.WellFormed)
    (hcount : t.count < 2 ^ 32) :
    m.id.toNat = t.count ∧ ModuleTable.WellFormed ⟨t.modules.push m⟩ := by
  have hid : m.id.toNat = t.count := by
    rw [hm.id_eq]
    exact UInt32.toNat_ofNat_of_lt' hcount
  refine ⟨hid, ht.push hid (by rw [hm.key_eq]; exact hm.fresh) ?_⟩
  rw [hm.deps_eq]
  exact hm.deps_lt

/-- While there are ids left, a new module's code is found, and so is that of every other module. -/
theorem stored (hm : Enters t c kind name own deps m blobs) (hstored : t.Stored c.blobs)
    (hcount : c.blobs.count < 2 ^ 32) (hne : own ≠ []) :
    blobs.blob? m.blob = some own ∧ ModuleTable.Stored ⟨t.modules.push m⟩ blobs := by
  have hown : blobs.blob? m.blob = some own := BlobStore.blob?_of_add? hm.added hcount
  refine ⟨hown, fun id m' hm' => ?_⟩
  rw [ModuleTable.get?_push] at hm'
  split at hm'
  · cases hm'
    exact ⟨own, hne, hown⟩
  · obtain ⟨code, hne', hcode⟩ := hstored id m' hm'
    exact ⟨code, hne', BlobStore.keeps_of_add? hm.added _ _ hcode⟩

end Enters

/-! ### Handles -/

namespace Dict

variable {κ α : Type} [DecidableEq κ]

/-- A new key goes behind the entries that are there. -/
theorem entries_insert_of_not_mem (d : Dict κ α) {k : κ} (v : α) (h : k ∉ d.keys) :
    (d.insert k v).entries = d.entries ++ [(k, v)] := by
  have h' : k ∉ d.entries.map Prod.fst := h
  unfold insert
  rw [dif_neg h']

/-- Nothing is found exactly for what is no key. -/
theorem find?_eq_none_iff (d : Dict κ α) (k : κ) : d.find? k = none ↔ k ∉ d.keys := by
  simp only [find?, keys, Option.map_eq_none_iff, List.find?_eq_none, decide_eq_true_eq,
    List.mem_map, not_exists, not_and]

/-- What is found for a key is its entry. There is no other, since keys come once. -/
theorem find?_eq_some_iff (d : Dict κ α) (k : κ) (v : α) :
    d.find? k = some v ↔ (k, v) ∈ d.entries := by
  constructor
  · intro h
    obtain ⟨e, hfind, rfl⟩ := Option.map_eq_some_iff.mp h
    have hkey : e.1 = k := by simpa using List.find?_some hfind
    rw [← hkey]
    exact List.mem_of_find?_eq_some hfind
  · intro h
    cases hvalue : d.find? k with
    | none =>
        rw [find?_eq_none_iff] at hvalue
        exact absurd (List.mem_map.mpr ⟨(k, v), h, rfl⟩) hvalue
    | some w =>
        obtain ⟨e, hfind, rfl⟩ := Option.map_eq_some_iff.mp hvalue
        have hkey : e.1 = k := by simpa using List.find?_some hfind
        have := List.inj_on_of_nodup_map d.nodup (List.mem_of_find?_eq_some hfind) h hkey
        rw [this]

end Dict

namespace Assembly

variable {s : Setting} {a b c : Assembly} {key : Kind × String} {done : List (Kind × String)}

/-! ### Invariants of the tables -/

/-- The tables fit together, and what is in them comes from the declarations in `done`. -/
structure Sound (a : Assembly) (done : List (Kind × String)) : Prop where
  table : a.table.WellFormed
  stored : a.table.Stored a.container.blobs
  in_step : a.container.dependencies.count = a.table.count
  keys : a.table.keys ⊆ done
  blobs : a.container.blobs.count ≤ 2 * done.length
  handles : a.handles.handles.keys ⊆ done

/-- A run starts with nothing done and nothing in the tables. -/
theorem sound_empty (es : List Event) : (empty.note es).Sound [] where
  table := ModuleTable.wellFormed_empty
  stored id m hm := by
    simp [note, empty, ModuleTable.empty, ModuleTable.get?] at hm
  in_step := rfl
  keys := List.Subset.refl _
  blobs := Nat.le_refl _
  handles := List.Subset.refl _

/-- There are no more modules than declarations that are done. -/
theorem Sound.count_le (h : a.Sound done) : a.table.count ≤ done.length := by
  rw [ModuleTable.count_eq_length_keys]
  exact (List.subperm_of_subset h.table.nodup h.keys).length_le

/-- There are no more handles than declarations that are done. -/
theorem Sound.size_le (h : a.Sound done) : a.handles.handles.size ≤ done.length := by
  have : a.handles.handles.size = a.handles.handles.keys.length := by simp [Dict.size, Dict.keys]
  rw [this]
  exact (List.subperm_of_subset a.handles.handles.nodup h.handles).length_le

/-- What is stored in `a` is stored in `b` as well. -/
structure Extends (a b : Assembly) : Prop where
  table : a.table.Extends b.table
  blobs : a.container.blobs.Keeps b.container.blobs
  handles : a.handles.handles.entries <+: b.handles.handles.entries
  instructions : a.container.instructions.toList <+: b.container.instructions.toList

theorem Extends.refl (a : Assembly) : a.Extends a :=
  ⟨.refl _, .refl _, List.prefix_rfl, List.prefix_rfl⟩

/-- Growing goes on from step to step. -/
theorem Extends.trans (h : a.Extends b) (h' : b.Extends c) : a.Extends c :=
  ⟨h.table.trans h'.table, h.blobs.trans h'.blobs, h.handles.trans h'.handles,
    h.instructions.trans h'.instructions⟩

/-! ### One step -/

/-- Adding a module keeps the table well formed: its id is its place. -/
theorem Sound.enter_table {kind : Kind} {name : String} {own : Bytes} {deps : List UInt32}
    {m : Module} {blobs : BlobStore} (ha : a.Sound done) (hlen : done.length < 2 ^ 31)
    (hm : Enters a.table a.container kind name own deps m blobs) :
    m.id.toNat = a.table.count ∧ (a.enter m blobs).table.WellFormed := by
  have hcount := ha.count_le
  exact hm.wellFormed ha.table (by omega)

/-- A module that was just added is in the table. -/
theorem Sound.get?_enter {kind : Kind} {name : String} {own : Bytes} {deps : List UInt32}
    {m : Module} {blobs : BlobStore} (ha : a.Sound done) (hlen : done.length < 2 ^ 31)
    (hm : Enters a.table a.container kind name own deps m blobs) :
    (a.enter m blobs).table.get? m.id = some m := by
  obtain ⟨hid, -⟩ := ha.enter_table hlen hm
  refine (ModuleTable.get?_push a.table m m.id).trans ?_
  rw [if_pos hid]

/-- Adding a module with code keeps every module's code in the store. -/
theorem Sound.enter_stored {kind : Kind} {name : String} {own : Bytes} {deps : List UInt32}
    {m : Module} {blobs : BlobStore} (ha : a.Sound done) (hlen : done.length < 2 ^ 31)
    (hne : own ≠ []) (hm : Enters a.table a.container kind name own deps m blobs) :
    blobs.blob? m.blob = some own ∧ (a.enter m blobs).table.Stored blobs := by
  have hblobs := ha.blobs
  exact hm.stored ha.stored (by omega) hne

/-- The step lemma: a declaration that is taken in leaves the tables sound. -/
theorem Change.sound (h : Change s a key b) (ha : a.Sound done) (hlen : done.length < 2 ^ 31) :
    b.Sound (done ++ [key]) := by
  have hkeep : ∀ {l : List (Kind × String)}, l ⊆ done → l ⊆ done ++ [key] :=
    fun h => List.Subset.trans h (List.subset_append_left _ _)
  have hhandles : ((a.handles.handles.insert key a.handles.next).keys) ⊆ done ++ [key] := by
    rw [Dict.keys_insert]
    split
    · exact hkeep ha.handles
    · exact List.append_subset.mpr ⟨hkeep ha.handles, List.subset_append_right _ _⟩
  have hblobs := ha.blobs
  cases h with
  | skipped log =>
      exact ⟨ha.table, ha.stored, ha.in_step, hkeep ha.keys, by simp; omega, hkeep ha.handles⟩
  | issued hsource log =>
      refine ⟨ha.table, ?_, ha.in_step, hkeep ha.keys, ?_, hhandles⟩
      · intro id m hm
        obtain ⟨code, hne, hcode⟩ := ha.stored id m hm
        exact ⟨code, hne, hsource.keeps _ _ hcode⟩
      · have := hsource.count_le
        simp only [issue, Container.push, List.length_append, List.length_singleton]
        omega
  | @entered own code deps m source blobs blobs' hne hm hsource cache log =>
      obtain ⟨-, hwf⟩ := ha.enter_table hlen hm
      obtain ⟨-, hstored⟩ := ha.enter_stored hlen hne hm
      refine ⟨hwf, ?_, ?_, ?_, ?_, hhandles⟩
      · intro id m' hm'
        obtain ⟨code, hne, hcode⟩ := hstored id m' hm'
        exact ⟨code, hne, hsource.keeps _ _ hcode⟩
      · have hcount : (a.enter m blobs).table.count = a.table.count + 1 :=
          ModuleTable.count_push _ _
        have hdep : (a.enter m blobs).container.dependencies.count =
            a.container.dependencies.count + 1 := by
          simp [enter, DependencyTable.add, DependencyTable.count]
        exact hdep.trans (by rw [ha.in_step]; exact hcount.symm)
      · have hkeys : (a.enter m blobs).table.keys = a.table.keys ++ [key] := by
          rw [show (a.enter m blobs).table = ⟨a.table.modules.push m⟩ from rfl,
            ModuleTable.keys_push, hm.key_eq]
        exact hkeys ▸ List.append_subset.mpr ⟨hkeep ha.keys, List.subset_append_right _ _⟩
      · have := hsource.count_le
        have := BlobStore.count_of_add? hm.added
        simp only [issue, enter, Container.push, List.length_append, List.length_singleton] at *
        omega

/-- A step keeps all modules and blobs, whatever the state before it. -/
theorem Change.grows (h : Change s a key b) :
    a.table.Extends b.table ∧ a.container.blobs.Keeps b.container.blobs := by
  cases h with
  | skipped log => exact ⟨.refl _, .refl _⟩
  | issued hsource log => exact ⟨.refl _, hsource.keeps⟩
  | entered _ hm hsource cache log =>
      exact ⟨ModuleTable.extends_push _ _, (BlobStore.keeps_of_add? hm.added).trans hsource.keeps⟩

/-- A step for a new key also leaves the handles and instructions that are there in front of what it
adds. -/
theorem Change.extends (h : Change s a key b) (ha : a.Sound done) (hkey : key ∉ done) :
    a.Extends b := by
  have hhandles : a.handles.handles.entries <+:
      (a.handles.handles.insert key a.handles.next).entries := by
    rw [Dict.entries_insert_of_not_mem _ _ fun h => hkey (ha.handles h)]
    exact List.prefix_append _ _
  have hpush :
      ∀ x, a.container.instructions.toList <+: (a.container.instructions.push x).toList := by
    intro x
    rw [Array.toList_push]
    exact List.prefix_append _ _
  obtain ⟨htable, hblobs⟩ := h.grows
  cases h with
  | skipped log => exact ⟨htable, hblobs, List.prefix_rfl, List.prefix_rfl⟩
  | issued hsource log => exact ⟨htable, hblobs, hhandles, hpush _⟩
  | entered hne hm hsource cache log => exact ⟨htable, hblobs, hhandles, hpush _⟩

/-- A step touches no module but that of its own declaration. -/
theorem Change.lookup_eq (h : Change s a key b) {kind : Kind} {name : String}
    (hne : (kind, name) ≠ key) : b.table.lookup kind name = a.table.lookup kind name := by
  cases h with
  | skipped log => rfl
  | issued _ log => rfl
  | entered _ hm _ cache log => exact ModuleTable.lookup_push_of_ne (hm.key_eq ▸ hne.symm)

/-! ### The end of an assembly -/

@[simp] theorem finish_table (a : Assembly) (mode : Mode) : (a.finish mode).table = a.table := by
  cases mode <;> rfl

@[simp] theorem finish_cache (a : Assembly) (mode : Mode) : (a.finish mode).cache = a.cache := by
  cases mode <;> rfl

@[simp] theorem finish_handles (a : Assembly) (mode : Mode) :
    (a.finish mode).handles = a.handles := by
  cases mode <;> rfl

@[simp] theorem finish_blobs (a : Assembly) (mode : Mode) :
    (a.finish mode).container.blobs = a.container.blobs := by
  cases mode <;> rfl

@[simp] theorem finish_strings (a : Assembly) (mode : Mode) :
    (a.finish mode).container.strings = a.container.strings := by
  cases mode <;> rfl

@[simp] theorem finish_dependencies (a : Assembly) (mode : Mode) :
    (a.finish mode).container.dependencies = a.container.dependencies := by
  cases mode <;> rfl

/-- Finishing adds an end to the instructions. -/
@[simp] theorem finish_instructions (a : Assembly) (mode : Mode) :
    (a.finish mode).container.instructions.toList =
      a.container.instructions.toList ++ [.finish] := by
  cases mode <;> simp [finish, Container.push]

/-! ### Runs -/

section run

variable {α : Type} {f : Assembly → α → Except Failure Assembly} {keyOf : α → Kind × String}
  {xs : List α}

/-- A run succeeds exactly if its first step and the rest do. -/
theorem foldlM_cons_eq_ok {x : α} : (x :: xs).foldlM f a = .ok c ↔
    ∃ b, f a x = .ok b ∧ xs.foldlM f b = .ok c := by
  rw [List.foldlM_cons]
  cases f a x with
  | error e => simp [bind, Except.bind]
  | ok b => simp [bind, Except.bind]

/-- A run fails exactly if its first step does, or the rest after it. -/
theorem foldlM_cons_eq_error {x : α} {e : Failure} : (x :: xs).foldlM f a = .error e ↔
    f a x = .error e ∨ ∃ b, f a x = .ok b ∧ xs.foldlM f b = .error e := by
  rw [List.foldlM_cons]
  cases f a x with
  | error e => simp [bind, Except.bind]
  | ok b => simp [bind, Except.bind]

/-- A run over two lists is a run over one and then over the other. -/
theorem foldlM_append_eq_ok {ys : List α} : (xs ++ ys).foldlM f a = .ok c ↔
    ∃ b, xs.foldlM f a = .ok b ∧ ys.foldlM f b = .ok c := by
  rw [List.foldlM_append]
  cases xs.foldlM f a with
  | error e => simp [bind, Except.bind]
  | ok b => simp [bind, Except.bind]

/-- What is done after the first of a list, and after the whole list. -/
theorem append_map_cons (done : List (Kind × String)) (keyOf : α → Kind × String) (x : α)
    (xs : List α) : done ++ (x :: xs).map keyOf = (done ++ [keyOf x]) ++ xs.map keyOf := by
  simp

/-- The next declaration of a run is new, and those before it can be counted. -/
theorem fresh_of_nodup {x : α} (hnodup : (done ++ (x :: xs).map keyOf).Nodup)
    (hlen : (done ++ (x :: xs).map keyOf).length < 2 ^ 31) :
    keyOf x ∉ done ∧ done.length < 2 ^ 31 := by
  constructor
  · intro hmem
    exact (List.nodup_append.mp hnodup).2.2 _ hmem _ (by simp) rfl
  · rw [List.length_append] at hlen
    omega

/-- What every step keeps, a run keeps. A step may use that its declaration is new, and that there
are fewer than `2 ^ 31` declarations before it. -/
theorem run_induction {P : List (Kind × String) → Assembly → Prop}
    (hstep : ∀ done a x b, x ∈ xs → keyOf x ∉ done → done.length < 2 ^ 31 → P done a →
      f a x = .ok b → P (done ++ [keyOf x]) b)
    (hnodup : (done ++ xs.map keyOf).Nodup) (hlen : (done ++ xs.map keyOf).length < 2 ^ 31)
    (ha : P done a) (h : xs.foldlM f a = .ok c) : P (done ++ xs.map keyOf) c := by
  -- on the declarations to come; `hnodup` and `hlen` speak of all, so they stay as `done` grows
  induction xs generalizing a done with
  | nil =>
      cases h
      simpa using ha
  | cons x xs ih =>
      obtain ⟨b, hb, h⟩ := foldlM_cons_eq_ok.mp h
      obtain ⟨hfresh, hshort⟩ := fresh_of_nodup hnodup hlen
      rw [append_map_cons] at hnodup hlen ⊢
      refine ih (fun done a y b hy => hstep done a y b (List.mem_cons_of_mem _ hy)) hnodup hlen ?_ h
      exact hstep done a x b List.mem_cons_self hfresh hshort ha hb

/-- A run keeps the tables sound, and what is stored stays. -/
theorem sound_run (hchange : ∀ a x b, f a x = .ok b → Change s a (keyOf x) b)
    (hnodup : (done ++ xs.map keyOf).Nodup) (hlen : (done ++ xs.map keyOf).length < 2 ^ 31)
    (ha : a.Sound done) (h : xs.foldlM f a = .ok c) :
    c.Sound (done ++ xs.map keyOf) ∧ a.Extends c := by
  refine run_induction (P := fun done b => b.Sound done ∧ a.Extends b) ?_ hnodup hlen
    ⟨ha, .refl a⟩ h
  rintro done b x b' - hfresh hshort ⟨hb, hab⟩ hstep
  have hc := hchange b x b' hstep
  exact ⟨hc.sound hb hshort, hab.trans (hc.extends hb hfresh)⟩

/-- A run at one of its declarations: the state in which the declaration is taken in, and the state
after that. -/
theorem run_split (hchange : ∀ a x b, f a x = .ok b → Change s a (keyOf x) b)
    (hnodup : (done ++ xs.map keyOf).Nodup) (hlen : (done ++ xs.map keyOf).length < 2 ^ 31)
    (ha : a.Sound done) (h : xs.foldlM f a = .ok c) {before after : List α} {x : α}
    (hsplit : xs = before ++ x :: after) :
    ∃ a₁ a₂, before.foldlM f a = .ok a₁ ∧ f a₁ x = .ok a₂ ∧ after.foldlM f a₂ = .ok c ∧
      a₁.Sound (done ++ before.map keyOf) ∧ a₂.Sound (done ++ before.map keyOf ++ [keyOf x]) ∧
      a₂.Extends c := by
  subst hsplit
  obtain ⟨a₁, h₁, h⟩ := foldlM_append_eq_ok.mp h
  obtain ⟨a₂, h₂, h₃⟩ := foldlM_cons_eq_ok.mp h
  rw [List.map_append, ← List.append_assoc] at hnodup hlen
  obtain ⟨-, hlen₁⟩ := fresh_of_nodup hnodup hlen
  have hnodup₁ := (List.nodup_append.mp hnodup).1
  rw [append_map_cons] at hnodup hlen
  have hsound₁ := (sound_run hchange hnodup₁ hlen₁ ha h₁).1
  have hsound₂ := (hchange a₁ x a₂ h₂).sound hsound₁ hlen₁
  exact ⟨a₁, a₂, h₁, h₂, h₃, hsound₁, hsound₂, (sound_run hchange hnodup hlen hsound₂ h₃).2⟩

/-- A run touches only the modules of its own declarations. -/
theorem lookup_run (hchange : ∀ a x b, f a x = .ok b → Change s a (keyOf x) b)
    (hnodup : (done ++ xs.map keyOf).Nodup) (hlen : (done ++ xs.map keyOf).length < 2 ^ 31)
    (ha : a.Sound done) (h : xs.foldlM f a = .ok c) {kind : Kind} {name : String}
    (hkey : (kind, name) ∉ xs.map keyOf) : c.table.lookup kind name = a.table.lookup kind name := by
  refine (run_induction (P := fun done b => b.Sound done ∧
    b.table.lookup kind name = a.table.lookup kind name) ?_ hnodup hlen ⟨ha, rfl⟩ h).2
  rintro done b x b' hx - hshort ⟨hb, heq⟩ hstep
  have hc := hchange b x b' hstep
  have hne : (kind, name) ≠ keyOf x := fun h => hkey (h ▸ List.mem_map_of_mem hx)
  exact ⟨hc.sound hb hshort, (hc.lookup_eq hne).trans heq⟩

end run

end Assembly

/-! ### Programs -/

namespace Program

/-- The number of declarations of a program. -/
def declarationCount (p : Program) : Nat := p.fragments.size + p.shaderModules.size

/-- What the declarations of a program are assembled with. -/
def setting (check : Wgsl.Check) (files : Files) (options : Options) (p : Program) : Setting :=
  ⟨files, options, .ofTexts p.defineTexts, check⟩

/-- The kind and the name of a scheduled fragment. -/
def fragmentKey (e : String × Declaration) : Kind × String := (.fragment, e.1)

/-- The kind and the name of a shader module. -/
def shaderModuleKey (e : String × Declaration) : Kind × String := (.shaderModule, e.1)

/-- Assembling a program takes the fragments to `a`, then the shader modules to `b`, and ends with
`c`. -/
structure Run (p : Program) (s : Setting) (a b c : Assembly) : Prop where
  fragments : p.scheduledFragments.foldlM (fun a e => a.addFragment s e.1 e.2)
    (Assembly.empty.note p.schedule.events) = .ok a
  shaderModules : p.shaderModules.entries.foldlM (fun a e => a.addShaderModule s e.1 e.2) a = .ok b
  finished : ∃ log, c = { b.finish s.options.mode with log }

variable {p : Program} {check : Wgsl.Check} {files : Files} {options : Options}

/-- An assembly that succeeds is a run: over the fragments, over the shader modules, and to the
end. -/
theorem exists_run {c : Assembly} (h : p.assembleWith check files options = .ok c) :
    ∃ a b, p.Run (p.setting check files options) a b c := by
  unfold assembleWith at h
  simp only [bind, Except.bind] at h
  split at h
  · cases h
  · next a ha =>
    split at h
    · cases h
    · next b hb =>
      cases h
      exact ⟨a, b, ha, hb, _, rfl⟩

/-- Taking the places in order takes the list itself. -/
theorem filterMap_getElem?_range {α : Type} (l : List α) (n : Nat) :
    (List.range n).filterMap (fun i => l[i]?) = l.take n := by
  induction n with
  | zero => simp
  | succ n ih =>
      rw [List.range_succ, List.filterMap_append, ih, List.take_add_one, List.filterMap_cons,
        List.filterMap_nil]
      cases l[n]? <;> rfl

/-- The schedule has every fragment once. -/
theorem scheduledFragments_perm (p : Program) : p.scheduledFragments.Perm p.fragments.entries := by
  have hlen : p.importPlaces.length = p.fragments.entries.length := by
    simp [importPlaces, Dict.values]
  have hrange :
      (List.range p.fragments.entries.length).filterMap (fun i => p.fragments.entries[i]?) =
      p.fragments.entries := by
    rw [filterMap_getElem?_range, List.take_length]
  have hperm :=
    (Schedule.order_perm_range p.importPlaces).filterMap fun i => p.fragments.entries[i]?
  rw [hlen, hrange] at hperm
  exact hperm

/-- The declarations of a program in the order in which they are taken in. -/
def declarations (p : Program) : List (Kind × String) :=
  p.scheduledFragments.map fragmentKey ++ p.shaderModules.entries.map shaderModuleKey

theorem length_declarations (p : Program) : p.declarations.length = p.declarationCount := by
  rw [declarations, List.length_append, List.length_map, List.length_map,
    p.scheduledFragments_perm.length_eq]
  rfl

/-- No declaration is taken in twice. -/
theorem nodup_declarations (p : Program) : p.declarations.Nodup := by
  have hfragments : (p.scheduledFragments.map Prod.fst).Nodup :=
    (p.scheduledFragments_perm.map Prod.fst).nodup_iff.mpr p.fragments.nodup
  have hinj : ∀ kind : Kind, Function.Injective (Prod.mk kind : String → Kind × String) :=
    fun kind _ _ h => (Prod.mk.inj h).2
  have h₁ := hfragments.map (hinj .fragment)
  have h₂ := p.shaderModules.nodup.map (hinj .shaderModule)
  rw [List.map_map] at h₁ h₂
  refine List.nodup_append.mpr ⟨h₁, h₂, ?_⟩
  rintro key hx key' hy rfl
  obtain ⟨e, -, rfl⟩ := List.mem_map.mp hx
  obtain ⟨e', -, he'⟩ := List.mem_map.mp hy
  cases he'

/-- A shader module that is taken in has a declaration. -/
theorem exists_shaderModule {p : Program} {name : String}
    (h : (Kind.shaderModule, name) ∈ p.declarations) :
    ∃ d, p.shaderModules.find? name = some d := by
  rcases List.mem_append.mp h with hmem | hmem
  · obtain ⟨e, -, he⟩ := List.mem_map.mp hmem
    cases he
  · obtain ⟨e, he, hname⟩ := List.mem_map.mp hmem
    obtain rfl : e.1 = name := (Prod.mk.inj hname).2
    exact ⟨e.2, (Dict.find?_eq_some_iff _ _ _).mpr he⟩

namespace Run

variable {s : Setting} {a b c : Assembly}

/-- Taking in a fragment changes the tables under its key. -/
theorem fragment_change (a : Assembly) (e : String × Declaration) (b : Assembly)
    (h : a.addFragment s e.1 e.2 = .ok b) : a.Change s (fragmentKey e) b :=
  (Assembly.addFragment_step h).change

/-- Taking in a shader module changes the tables under its key. -/
theorem shaderModule_change (a : Assembly) (e : String × Declaration) (b : Assembly)
    (h : a.addShaderModule s e.1 e.2 = .ok b) : a.Change s (shaderModuleKey e) b :=
  (Assembly.addShaderModule_step h).change

/-- There are few enough fragments for 32-bit ids if there are few enough declarations. -/
theorem length_fragments_lt (hlen : p.declarationCount < 2 ^ 31) :
    (p.scheduledFragments.map fragmentKey).length < 2 ^ 31 := by
  rw [← length_declarations, declarations, List.length_append] at hlen
  omega

/-- The fragments are taken in from nothing, none of them twice. -/
theorem fragment_keys (hlen : p.declarationCount < 2 ^ 31) :
    ([] ++ p.scheduledFragments.map fragmentKey).Nodup ∧
      ([] ++ p.scheduledFragments.map fragmentKey).length < 2 ^ 31 := by
  rw [List.nil_append]
  exact ⟨(List.nodup_append.mp p.nodup_declarations).1, length_fragments_lt hlen⟩

/-- The key of a fragment is not that of a shader module. -/
theorem fragment_not_mem_shaderModules (name : String) (es : List (String × Declaration)) :
    (Kind.fragment, name) ∉ es.map shaderModuleKey := by
  intro hmem
  obtain ⟨e, -, he⟩ := List.mem_map.mp hmem
  cases he

/-- The tables are sound when the fragments have been taken in. -/
theorem sound_fragments (r : p.Run s a b c) (hlen : p.declarationCount < 2 ^ 31) :
    a.Sound (p.scheduledFragments.map fragmentKey) := by
  obtain ⟨hnodup, hlen'⟩ := fragment_keys hlen
  rw [← List.nil_append (p.scheduledFragments.map fragmentKey)]
  exact (Assembly.sound_run fragment_change hnodup hlen' (Assembly.sound_empty _) r.fragments).1

/-- The tables are sound when the shader modules have been taken in too, and the fragments are there
as before. -/
theorem sound_shaderModules (r : p.Run s a b c) (hlen : p.declarationCount < 2 ^ 31) :
    b.Sound p.declarations ∧ a.Extends b := by
  have hlen' := length_declarations p ▸ hlen
  exact Assembly.sound_run shaderModule_change p.nodup_declarations hlen' (r.sound_fragments hlen)
    r.shaderModules

end Run

/-! ### A program to try statements on -/

/-- A fragment with code of its own and imports. -/
def fragmentOf (code : String) (imports : List String) : Declaration :=
  .ofList [("value", .text code), ("imports", .list (imports.map .ident))]

/-- A program in which imports come late, twice, out of a cycle and from an empty fragment, with a
shader module that uses a fragment and one with code of its own. -/
def sample : Program :=
  { empty with
    fragments := .ofList
      [("noise", fragmentOf "n" ["hash", "math", "hash"]),
        ("hash", fragmentOf "h" ["math", "blank"]),
        ("left", fragmentOf "l" ["right"]), ("right", fragmentOf "r" ["left", "hash"]),
        ("math", fragmentOf "m" []), ("blank", fragmentOf "" [])]
    shaderModules := .ofList
      [("main", .ofList [("code", .ident "noise")]),
        ("post", .ofList
          [("code", .text "p"), ("imports", .list [.ident "hash", .ident "right"])])] }

/-- A disk without files. -/
def noFiles : Files := fun _ => .error .notFound

/-- Every code passes. -/
def noCheck : Wgsl.Check := fun _ => none

end Program

end ShaderPack
