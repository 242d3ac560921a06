import ShaderPack.Proofs.ClosureBound
import ShaderPack.Proofs.Flattening

/-!
# Any history of registrations

A caller may ask for a module that cannot be registered: its name is taken, or it depends on
something that is not there. Such a request is refused, and requests can follow it. This module says
what a table is like after any history of requests, granted and refused ones mixed
(`ModuleTable.ofHistory`).

* `ModuleTable.submit_eq_error`: which requests are refused, and with which fault.
* `ModuleTable.registered_ofHistory`: refused requests leave no trace, so the table was made by the
  granted ones.
* `IndexedTable`: a table that finds names in an index, and that changes in steps. A refusal between
  two steps would leave index and modules apart. There is none, so index and modules stay in step
  (`IndexedTable.Agrees.after`).
* `ModuleTable.registrations_sound`: the statement about all histories.
-/

namespace ShaderPack

/-- What a caller asks to be registered. -/
structure Registration where
  /-- The kind of the module. -/
  kind : Kind
  /-- Its name. -/
  name : String
  /-- The name's id in the string table. -/
  nameId : UInt32
  /-- The blob with its code. -/
  blob : UInt32
  /-- The position of that blob in the pool. -/
  offset : UInt32
  /-- What it depends on. -/
  deps : List UInt32
  deriving DecidableEq, Repr

namespace Registration

/-- The kind and the name that are asked for. -/
def key (r : Registration) : Kind × String := (r.kind, r.name)

/-- The module that is registered under an id. -/
def toModule (r : Registration) (id : UInt32) : Module :=
  ⟨id, r.kind, r.name, r.nameId, r.blob, r.offset, r.deps⟩

end Registration

namespace ModuleTable

variable {t t' : ModuleTable} {r : Registration} {id : UInt32} {e : RegisterFault}

/-- Ask for a module to be registered. -/
def submit (t : ModuleTable) (r : Registration) : Except RegisterFault (ModuleTable × UInt32) :=
  t.register r.kind r.name r.nameId r.blob r.offset r.deps

/-- The table after a request, whether it was granted or not. -/
def after (t : ModuleTable) (r : Registration) : ModuleTable :=
  match t.submit r with
  | .ok (t', _) => t'
  | .error _ => t

/-- The table after a history of requests. -/
def ofHistory (requests : List Registration) : ModuleTable := requests.foldl after empty

/-! ### One request -/

/-- When a request is granted, and what the table is then. -/
theorem submit_eq_ok :
    t.submit r = .ok (t', id) ↔
    r.key ∉ t.keys ∧ id = UInt32.ofNat t.count ∧ (∀ d ∈ r.deps, d < id) ∧
    t' = ⟨t.modules.push (r.toModule id)⟩ :=
  register_eq_ok

/-- A request is refused if its name is taken, and else if it depends on something that is not
registered. -/
theorem submit_eq_error :
    t.submit r = .error e ↔
    (r.key ∈ t.keys ∧ e = .nameTaken r.kind r.name) ∨
      (r.key ∉ t.keys ∧ (∃ d ∈ r.deps, UInt32.ofNat t.count ≤ d) ∧
        e = .unknownDependency r.name) := by
  have htaken : (t.lookup r.kind r.name).isSome ↔ r.key ∈ t.keys := by
    rw [← not_iff_not, Bool.not_eq_true, Option.isSome_eq_false_iff, Option.isNone_iff_eq_none]
    exact lookup_eq_none_iff
  have hdeps : (r.deps.all fun d => d < UInt32.ofNat t.count) ↔
      ¬ ∃ d ∈ r.deps, UInt32.ofNat t.count ≤ d := by
    simp
  rw [submit, register]
  by_cases hkey : r.key ∈ t.keys
  · rw [if_pos (htaken.mpr hkey)]
    simp [hkey, eq_comm]
  · rw [if_neg (htaken.not.mpr hkey)]
    by_cases hsome : ∃ d ∈ r.deps, UInt32.ofNat t.count ≤ d
    · rw [if_neg (hdeps.not_left.mpr hsome)]
      simp only [hkey, hsome, Except.error.injEq, false_and, not_false_eq_true, true_and, false_or,
        eq_comm]
    · rw [if_pos (hdeps.mpr hsome)]
      simp only [hkey, hsome, reduceCtorEq, false_and, and_false, or_false]

/-- A kind and a name are taken exactly if a module has them. -/
theorem mem_keys_iff : r.key ∈ t.keys ↔ ∃ m ∈ t.modules, m.kind = r.kind ∧ m.name = r.name := by
  simp only [keys, List.mem_map, Array.mem_toList_iff, Module.key, Registration.key, Prod.mk.injEq]

/-- While every module has an id of its own, a dependency is registered if it is below the count. -/
theorem exists_error_iff (hcount : t.count < 2 ^ 32) : (∃ e, t.submit r = .error e) ↔
    (∃ m ∈ t.modules, m.kind = r.kind ∧ m.name = r.name) ∨ ∃ d ∈ r.deps, t.count ≤ d.toNat := by
  have hle : ∀ d, UInt32.ofNat t.count ≤ d ↔ t.count ≤ d.toNat := fun d => by
    rw [UInt32.le_iff_toNat_le, UInt32.toNat_ofNat_of_lt' hcount]
  simp only [submit_eq_error, ← mem_keys_iff, hle]
  by_cases hkey : r.key ∈ t.keys
  · simp [hkey]
  · simp [hkey]

/-- A request is refused for its name exactly if a module of its kind has the name. -/
theorem submit_eq_nameTaken :
    t.submit r = .error (.nameTaken r.kind r.name) ↔ ∃ m ∈ t.modules, m.kind = r.kind ∧
    m.name = r.name := by
  simp [submit_eq_error, ← mem_keys_iff]

/-- What a request makes of a table: one more module, or nothing. -/
theorem after_cases (t : ModuleTable) (r : Registration) :
    (∃ id, t.submit r = .ok (t.after r, id)) ∨ (∃ e, t.submit r = .error e) ∧ t.after r = t := by
  unfold after
  cases h : t.submit r with
  | ok granted => exact .inl ⟨granted.2, rfl⟩
  | error e => exact .inr ⟨⟨e, rfl⟩, rfl⟩

theorem after_of_ok (h : t.submit r = .ok (t', id)) : t.after r = t' := by rw [after, h]

/-- A refused request leaves the table as it was. -/
theorem after_of_error (h : t.submit r = .error e) : t.after r = t := by rw [after, h]

/-- A module whose kind and name were free is found under them. -/
theorem lookup_push_self {m : Module} (hkey : m.key ∉ t.keys) :
    lookup ⟨t.modules.push m⟩ m.kind m.name = some m.id := by
  have hnone : t.lookup m.kind m.name = none := lookup_eq_none_iff.mpr hkey
  rw [lookup, Option.map_eq_none_iff] at hnone
  rw [lookup, Array.find?_push, hnone]
  simp

/-- Whatever comes of a request, the modules that are there stay. -/
theorem extends_after (t : ModuleTable) (r : Registration) : t.Extends (t.after r) := by
  obtain ⟨id, hok⟩ | ⟨-, hsame⟩ := t.after_cases r
  · obtain ⟨-, -, -, hpush⟩ := submit_eq_ok.mp hok
    rw [hpush]
    exact extends_push _ _
  · rw [hsame]
    exact Extends.refl t

/-! ### Histories -/

/-- A history with one request more goes one step further. -/
theorem ofHistory_concat (requests : List Registration) (r : Registration) :
    ofHistory (requests ++ [r]) = (ofHistory requests).after r := by
  rw [ofHistory, List.foldl_append]
  rfl

/-- A request leaves a table that registering can give. -/
theorem Registered.after (ht : t.Registered) (r : Registration) : (t.after r).Registered := by
  obtain ⟨id, hok⟩ | ⟨-, hsame⟩ := t.after_cases r
  · exact ht.register hok
  · rwa [hsame]

/-- Only the requests that were granted count. -/
theorem registered_ofHistory (requests : List Registration) : (ofHistory requests).Registered :=
  List.foldlRecOn (motive := Registered) requests after .empty fun _ ht r _ => ht.after r

/-- After every history the table is well-formed, as long as ids do not wrap around. -/
theorem wellFormed_ofHistory {requests : List Registration}
    (hcount : (ofHistory requests).count < 2 ^ 32) : (ofHistory requests).WellFormed := by
  have h := (registered_ofHistory requests).wellFormed_visible
  rwa [visible_of_le hcount.le] at h

/-- Later requests leave what is registered as it is. -/
theorem extends_ofHistory {earlier requests : List Registration} (h : earlier <+: requests) :
    (ofHistory earlier).Extends (ofHistory requests) := by
  obtain ⟨later, rfl⟩ := h
  rw [ofHistory, ofHistory, List.foldl_append]
  refine List.foldlRecOn (motive := (earlier.foldl after empty).Extends) later after
    (Extends.refl _) ?_
  intro t ht r _
  exact ht.trans (t.extends_after r)

end ModuleTable

/-! ### Tables with an index -/

/-- A module table with an index of its names. -/
structure IndexedTable where
  /-- The modules, in the order of their ids. -/
  modules : Array Module
  /-- The id of each kind and name. -/
  ids : Dict (Kind × String) UInt32

namespace IndexedTable

variable {s : IndexedTable} {t : ModuleTable}

/-- The table without modules. -/
def empty : IndexedTable := ⟨#[], .empty⟩

/-- Register a module: check its name, check what it depends on, put its name into the index, add
it. What was done before a refusal stays done. -/
def register (r : Registration) : ExceptT RegisterFault (StateM IndexedTable) UInt32 := do
  if ((← get).ids.find? r.key).isSome then throw (.nameTaken r.kind r.name)
  let id := UInt32.ofNat (← get).modules.size
  if !r.deps.all fun d => d < id then throw (.unknownDependency r.name)
  modify fun s => { s with ids := s.ids.insert r.key id }
  modify fun s => { s with modules := s.modules.push (r.toModule id) }
  return id

/-- Ask for a module to be registered. Gives the answer, and the table as it is left. -/
def submit (s : IndexedTable) (r : Registration) : Except RegisterFault UInt32 × IndexedTable :=
  (register r).run.run s

/-- The table after a history of requests. -/
def ofHistory (requests : List Registration) : IndexedTable :=
  requests.foldl (fun s r => (s.submit r).2) empty

/-- The table has the modules of `t`, and its index says what looking up in `t` says. -/
structure Agrees (s : IndexedTable) (t : ModuleTable) : Prop where
  modules : s.modules = t.modules
  ids : ∀ kind name, s.ids.find? (kind, name) = t.lookup kind name

/-- What a request comes to: both checks come before both changes. -/
theorem submit_eq (s : IndexedTable) (r : Registration) :
    s.submit r =
    if (s.ids.find? r.key).isSome then (.error (.nameTaken r.kind r.name), s)
    else if r.deps.all fun d => d < UInt32.ofNat s.modules.size then
      (.ok (UInt32.ofNat s.modules.size),
        ⟨s.modules.push (r.toModule (UInt32.ofNat s.modules.size)),
          s.ids.insert r.key (UInt32.ofNat s.modules.size)⟩)
    else (.error (.unknownDependency r.name), s) := by
  unfold submit register
  -- each check sees the table as it was handed in
  change StateT.run (ExceptT.run (if (s.ids.find? r.key).isSome then _ else _)) s = _
  cases (s.ids.find? r.key).isSome with
  | true => rfl
  | false =>
      change StateT.run
        (ExceptT.run (if !r.deps.all fun d => d < UInt32.ofNat s.modules.size then _ else _)) s = _
      cases r.deps.all fun d => d < UInt32.ofNat s.modules.size <;> rfl

/-- At the start the index has nothing, and there is nothing to find. -/
theorem agrees_empty : empty.Agrees ModuleTable.empty where
  modules := rfl
  ids _ _ := rfl

/-- A request has the same answer in both tables. A refused one changes nothing. -/
theorem Agrees.submit_eq (h : s.Agrees t) (r : Registration) : s.submit r =
    match t.submit r with
    | .error e => (.error e, s)
    | .ok (t', id) => (.ok id, ⟨t'.modules, s.ids.insert r.key id⟩) := by
  have hids : s.ids.find? r.key = t.lookup r.kind r.name := h.ids r.kind r.name
  rw [IndexedTable.submit_eq, hids, h.modules, ModuleTable.submit, ModuleTable.register,
    ModuleTable.count]
  split
  · rfl
  · split <;> rfl

/-- After a request, index and modules are in step as they were before. -/
theorem Agrees.after (h : s.Agrees t) (r : Registration) : (s.submit r).2.Agrees (t.after r) := by
  rw [h.submit_eq r]
  cases hr : t.submit r with
  | error e =>
      rw [ModuleTable.after_of_error hr]
      exact h
  | ok granted =>
      obtain ⟨t', id⟩ := granted
      obtain ⟨hkey, -, -, rfl⟩ := ModuleTable.submit_eq_ok.mp hr
      rw [ModuleTable.after_of_ok hr]
      refine ⟨rfl, fun kind name => ?_⟩
      rw [Dict.find?_insert]
      split
      · next hsame =>
        obtain ⟨rfl, rfl⟩ := Prod.mk.inj hsame
        exact (ModuleTable.lookup_push_self (m := r.toModule id) hkey).symm
      · next hne =>
        rw [h.ids]
        exact (ModuleTable.lookup_push_of_ne (m := r.toModule id) (Ne.symm hne)).symm

/-- The index agrees with the table after every history. -/
theorem agrees_ofHistory (requests : List Registration) :
    (ofHistory requests).Agrees (ModuleTable.ofHistory requests) := by
  induction requests using List.reverseRecOn with
  | nil => exact agrees_empty
  | append_singleton requests r ih =>
      rw [ModuleTable.ofHistory_concat, ofHistory, List.foldl_append]
      exact ih.after r

end IndexedTable

/-! ### All histories -/

namespace ModuleTable

/-- **What registrations keep.** Take the table after any history of requests, granted and refused
ones, that has fewer than `2 ^ 32` modules.

A further request is refused exactly if a module of its kind and name is there, or if it depends on
an id that is not below the count of modules; the first of these is looked at first. A refused
request leaves the table as it was. Any other is given the count of modules as its id, and is
registered at the end.

The module at place `i` has the id `i` and depends on earlier modules only. Looking up a kind and a
name finds `i` exactly if the module at place `i` has them. So no two modules have both in common,
and no module depends on itself, directly or through others. What is registered after part of the
history stays as it is.

All this holds of a table that keeps an index of its names and changes step by step: its modules are
the same, its index says what looking up says, its answers are the same, and a refusal leaves both
modules and index as they were. -/
theorem registrations_sound (requests : List Registration)
    (hcount : (ofHistory requests).count < 2 ^ 32) : let t := ofHistory requests
    let s := IndexedTable.ofHistory requests
    (∀ r : Registration,
      ((∃ e, t.submit r = .error e) ↔
        (∃ m ∈ t.modules, m.kind = r.kind ∧ m.name = r.name) ∨ ∃ d ∈ r.deps, t.count ≤ d.toNat) ∧
      (t.submit r = .error (.nameTaken r.kind r.name) ↔ ∃ m ∈ t.modules, m.kind = r.kind ∧
        m.name = r.name) ∧
      (∀ e, t.submit r = .error e → ofHistory (requests ++ [r]) = t) ∧
      (∀ t' id, t.submit r = .ok (t', id) → id.toNat = t.count ∧ ofHistory (requests ++ [r]) = t' ∧
        t'.modules = t.modules.push ⟨id, r.kind, r.name, r.nameId, r.blob, r.offset, r.deps⟩)) ∧
    (∀ i : UInt32, i.toNat < t.count → ∃ m, t.get? i = some m ∧ m.id = i ∧ ∀ d ∈ m.deps, d < i) ∧
    (∀ kind name i, t.lookup kind name = some i ↔ ∃ m, t.get? i = some m ∧ m.kind = kind ∧
      m.name = name) ∧
    (∀ i j m m', t.get? i = some m → t.get? j = some m' → m.kind = m'.kind → m.name = m'.name →
      i = j) ∧
    (∀ i, ¬ Relation.TransGen t.DependsOn i i) ∧
    (∀ earlier, earlier <+: requests → ∀ i m, (ofHistory earlier).get? i = some m →
      t.get? i = some m) ∧
    s.modules = t.modules ∧ (∀ kind name, s.ids.find? (kind, name) = t.lookup kind name) ∧
    ∀ r : Registration, (∀ e, t.submit r = .error e → s.submit r = (.error e, s)) ∧
      ∀ t' id, t.submit r = .ok (t', id) → (s.submit r).1 = .ok id := by
  intro t s
  have ht : t.WellFormed := wellFormed_ofHistory hcount
  have hs : s.Agrees t := IndexedTable.agrees_ofHistory requests
  refine ⟨fun r => ⟨exists_error_iff hcount, submit_eq_nameTaken, ?_, ?_⟩, ?_, ?_, ?_,
    not_transGen_self ht, ?_, hs.modules, hs.ids, fun r => ⟨?_, ?_⟩⟩
  · intro e hr
    rw [ofHistory_concat, after_of_error hr]
  · intro t' id hr
    obtain ⟨-, rfl, -, rfl⟩ := submit_eq_ok.mp hr
    rw [ofHistory_concat, after_of_ok hr]
    exact ⟨UInt32.toNat_ofNat_of_lt' hcount, rfl, rfl⟩
  · intro i hi
    obtain ⟨m, hm⟩ := exists_get?_of_lt hi
    exact ⟨m, hm, ht.id_of_get? hm, fun d hd => UInt32.lt_iff_toNat_lt.mpr (ht.dep_lt hm hd)⟩
  · intro kind name i
    rw [lookup_eq_some_iff ht]
    simp only [Module.key, Prod.mk.injEq]
  · intro i j m m' hm hm' hkind hname
    have hi := (lookup_eq_some_iff ht).mpr ⟨m, hm, rfl⟩
    have hj := (lookup_eq_some_iff ht).mpr ⟨m', hm', Prod.ext hkind.symm hname.symm⟩
    exact Option.some.inj (hi.symm.trans hj)
  · intro earlier hearlier i m hm
    exact (extends_ofHistory hearlier).get? hm
  · intro e hr
    rw [hs.submit_eq r, hr]
  · intro t' id hr
    rw [hs.submit_eq r, hr]

/-- A history in which a taken name and an unknown dependency are refused, and the refused name is
free later. -/
def sampleRequests : List Registration :=
  [⟨.fragment, "base", 0, 0, 0, []⟩, ⟨.fragment, "base", 0, 1, 4, []⟩,
    ⟨.fragment, "light", 1, 1, 4, [0, 1]⟩,
    ⟨.fragment, "light", 1, 1, 4, [0]⟩, ⟨.shaderModule, "light", 1, 2, 9, [1, 0]⟩]

/-- Three of the requests are granted. A dependency on an id that comes next is refused, a shader
module is found under the name of a fragment, and no module reaches itself. -/
theorem sample_registrations : (ofHistory sampleRequests).count = 3 ∧
    (∃ e, (ofHistory sampleRequests).submit ⟨.fragment, "sky", 2, 3, 12, [3]⟩ = .error e) ∧
    (ofHistory sampleRequests).lookup .shaderModule "light" = some 2 ∧
    (IndexedTable.ofHistory sampleRequests).ids.find? (.shaderModule, "light") = some 2 ∧
    ¬ Relation.TransGen (ofHistory sampleRequests).DependsOn 2 2 := by
  have hcount : (ofHistory sampleRequests).count = 3 := by decide +kernel
  obtain ⟨hnext, -, hlookup, -, hacyclic, -, -, hids, -⟩ :=
    registrations_sound sampleRequests (by rw [hcount]; decide)
  have hfound : (ofHistory sampleRequests).lookup .shaderModule "light" = some 2 :=
    (hlookup _ _ _).mpr ⟨⟨2, .shaderModule, "light", 1, 2, 9, [1, 0]⟩, by decide +kernel, rfl, rfl⟩
  refine ⟨hcount, (hnext _).1.mpr (.inr ⟨3, List.mem_singleton_self _, ?_⟩), hfound,
    (hids _ _).trans hfound, hacyclic 2⟩
  rw [hcount]
  decide

end ModuleTable

end ShaderPack
