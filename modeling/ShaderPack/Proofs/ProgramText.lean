import ShaderPack.Program.Format
import ShaderPack.Proofs.Expansion
import ShaderPack.Proofs.JsonValues

/-!
# Programs read back

A program is written as an object of objects. Reading takes every layer apart again:
`recordFields?_obj` the records with named fields, `dict?_ofDict` the dictionaries, whose entries
come back in their order, `Property.ofTree?_toTree` the properties of all kinds.
`Program.reads_back` puts the layers together: where nothing has to be rounded and the text is not
nested too deep, it gives the program.

The reader and the writer follow `serde_json` with its default features. The program's own maps (the
defines, the declarations and their properties) keep the order of insertion. An object inside the
value of a define does not: it is kept sorted by key, whatever the order of its members in the text.
So a value is asked to be well-formed (`Json.Value.WellFormed`, the keys of every object ascend),
and `reads_back` says too that no other values are ever read.
-/

namespace ShaderPack

/-! ### Dictionaries -/

namespace Dict

variable {κ α : Type} [DecidableEq κ]

/-- A dictionary is made again from its entries. -/
theorem ofList_entries (d : Dict κ α) : ofList d.entries = d := by
  have hentries := entries_ofList d.nodup
  generalize ofList d.entries = d' at hentries ⊢
  cases d
  cases d'
  cases hentries
  rfl

/-- Giving a key a value brings in no other value. -/
theorem mem_values_insert {d : Dict κ α} {k : κ} {v x : α} (h : x ∈ (d.insert k v).values) :
    x = v ∨ x ∈ d.values := by
  obtain ⟨e, he, rfl⟩ := List.mem_map.mp h
  unfold insert at he
  split at he
  · obtain ⟨e', he', rfl⟩ := List.mem_map.mp he
    split
    · exact .inl rfl
    · exact .inr (List.mem_map_of_mem he')
  · obtain he | he := List.mem_append.mp he
    · exact .inr (List.mem_map_of_mem he)
    · exact .inl (congrArg Prod.snd (List.mem_singleton.mp he))

end Dict

namespace Json

section Dictionaries

variable {α : Type} {write : α → Value}

/-- Entries that are read back one by one are put into the dictionary one by one. -/
theorem dictFrom?_map {read : Tree → Option α} {es : List (String × α)}
    (hread : ∀ e ∈ es, read (write e.2).toTree = some e.2) (found : Dict String α) :
    dictFrom? read found (es.map fun e => (some e.1, (write e.2).toTree)) =
      some (es.foldl (fun d e => d.insert e.1 e.2) found) := by
  induction es generalizing found with
  | nil => rfl
  | cons e es ih =>
      rw [List.forall_mem_cons] at hread
      rw [List.map_cons, dictFrom?, hread.1, List.foldl_cons]
      exact ih hread.2 (found.insert e.1 e.2)

/-- A dictionary is read back, its entries in their order, if its values are. -/
theorem dict?_ofDict {read : Nat → Tree → Option α} {depth : Nat} {d : Dict String α}
    (hdepth : (ofDict write d).NestsWithin depth)
    (hread : ∀ v ∈ d.values, ∀ depth, (write v).NestsWithin depth →
      read depth (write v).toTree = some v) :
    dict? read depth (ofDict write d).toTree = some d := by
  unfold ofDict at hdepth ⊢
  cases hdepth with
  | @obj depth _ hmembers =>
      have hentries : ∀ e ∈ d.entries, read depth (write e.2).toTree = some e.2 := by
        intro e he
        exact hread e.2 (List.mem_map_of_mem he) depth (hmembers _ (List.mem_map_of_mem he))
      rw [Value.toTree, Value.memberTrees_eq_map, List.map_map, dict?]
      refine (dictFrom?_map hentries .empty).trans ?_
      exact congrArg some d.ofList_entries

/-- What holds of every value that can be read holds of the values of a dictionary that is read. -/
theorem forall_of_dictFrom? {P : α → Prop} {read : Tree → Option α}
    (hread : ∀ t v, read t = some v → P v) {members : Tree.Members} {found d : Dict String α}
    (hfound : ∀ v ∈ found.values, P v) (h : dictFrom? read found members = some d) :
    ∀ v ∈ d.values, P v := by
  fun_induction dictFrom? read found members with
  | case1 found =>
      cases h
      exact hfound
  | case2 => cases h
  | case3 => cases h
  | case4 found k t rest v hv ih =>
      refine ih ?_ h
      intro x hx
      obtain rfl | hx := Dict.mem_values_insert hx
      · exact hread t x hv
      · exact hfound x hx

/-- What holds of all that a reader gives holds of all values of a dictionary that is read with
it. -/
theorem forall_of_dict? {P : α → Prop} {read : Nat → Tree → Option α}
    (hread : ∀ depth t v, read depth t = some v → P v) {depth : Nat} {t : Tree} {d : Dict String α}
    (h : dict? read depth t = some d) : ∀ v ∈ d.values, P v := by
  unfold dict? at h
  split at h
  · split at h
    · cases h
    · refine forall_of_dictFrom? (hread _) ?_ h
      exact List.forall_mem_nil P
  · cases h

/-- A dictionary of values without floating-point numbers has none. -/
theorem floatFree_ofDict {d : Dict String α} (h : ∀ v ∈ d.values, (write v).FloatFree) :
    (ofDict write d).FloatFree :=
  .obj (List.forall_mem_map.mpr fun _ he => h _ (List.mem_map_of_mem he))

end Dictionaries

/-! ### Records -/

/-- A key that comes once gives its member. -/
theorem memberOnce?_of_mem {members : List (String × Tree)} (hnodup : (members.map Prod.fst).Nodup)
    {m : String × Tree} (hm : m ∈ members) :
    memberOnce? (members.map fun m => (some m.1, m.2)) m.1 = some (some m.2) := by
  have hfilter : (members.map fun m => (some m.1, m.2)).filter (fun x => x.1 = some m.1) =
      [(some m.1, m.2)] := by
    induction members with
    | nil => cases hm
    | cons m' rest ih =>
        rw [List.map_cons, List.nodup_cons] at hnodup
        rw [List.map_cons, List.filter_cons]
        obtain rfl | hm := List.mem_cons.mp hm
        -- behind the member its key does not come again
        · have hrest : (rest.map fun m => (some m.1, m.2)).filter (fun x => x.1 = some m.1) =
              [] := by
            rw [List.filter_eq_nil_iff]
            intro x hx heq
            obtain ⟨y, hy, rfl⟩ := List.mem_map.mp hx
            have hkey : y.1 = m.1 := Option.some.inj (of_decide_eq_true heq)
            exact hnodup.1 (hkey ▸ List.mem_map_of_mem hy)
          rw [if_pos (by simp), hrest]
        · have hne : m'.1 ≠ m.1 := fun heq => hnodup.1 (heq ▸ List.mem_map_of_mem hm)
          rw [if_neg (by simpa using hne), ih hnodup.2 hm]
  rw [memberOnce?, hfilter]

/-- The fields of a record that is written as an object, in order. -/
theorem recordFields?_obj (members : List (String × Tree)) (hnodup : (members.map Prod.fst).Nodup) :
    recordFields? (members.map Prod.fst) (.obj (members.map fun m => (some m.1, m.2))) =
      some (members.map fun m => some m.2) := by
  have hsub :
      ∀ ms ⊆ members, (ms.map Prod.fst).mapM (memberOnce? (members.map fun m => (some m.1, m.2))) =
      some (ms.map fun m => some m.2) := by
    intro ms hms
    induction ms with
    | nil => rfl
    | cons m ms ih =>
        rw [List.cons_subset] at hms
        rw [List.map_cons, List.mapM_cons, memberOnce?_of_mem hnodup hms.1, ih hms.2]
        rfl
  have hkeys : (members.map fun m => (some m.1, m.2)).all (fun m => m.1.isSome) = true := by simp
  rw [recordFields?, if_pos hkeys, hsub members (List.Subset.refl _)]

end Json

/-! ### Properties -/

namespace Property

/-- There is no number in the property. -/
inductive NumberFree : Property → Prop
  | ident (name : String) : NumberFree (.ident name)
  | text (s : String) : NumberFree (.text s)
  | bool (b : Bool) : NumberFree (.bool b)
  | list {items : List Property} (hitems : ∀ p ∈ items, NumberFree p) : NumberFree (.list items)

attribute [simp] NumberFree.ident NumberFree.text NumberFree.bool

@[simp] theorem numberFree_list_iff {items : List Property} :
    NumberFree (.list items) ↔ ∀ p ∈ items, p.NumberFree :=
  ⟨fun | .list hitems => hitems, .list⟩

theorem toValues_eq_map (items : List Property) : toValues items = items.map toValue := by
  induction items with
  | nil => rfl
  | cons p rest ih => rw [toValues, ih, List.map_cons]

/-- A property without numbers is written without floating-point numbers. -/
theorem NumberFree.floatFree {p : Property} (h : p.NumberFree) : p.toValue.FloatFree := by
  induction h with
  | ident name => exact .obj (List.forall_mem_singleton.mpr (.str name))
  | text s => exact .str s
  | bool b => exact .bool b
  | list _ ih =>
      rw [toValue, toValues_eq_map]
      exact .arr (List.forall_mem_map.mpr ih)

/-- Properties that are read back one by one are read back as a list. -/
theorem ofItems?_map {depth : Nat} {items : List Property}
    (hread : ∀ p ∈ items, ofTree? depth p.toValue.toTree = some p) (found : List Property) :
    ofItems? depth found (items.map fun p => p.toValue.toTree) = some (found.reverse ++ items) := by
  induction items generalizing found with
  | nil => rw [List.map_nil, ofItems?, List.append_nil]
  | cons p rest ih =>
      rw [List.forall_mem_cons] at hread
      rw [List.map_cons, ofItems?, hread.1]
      refine (ih hread.2 (p :: found)).trans ?_
      rw [List.reverse_cons, List.append_assoc, List.singleton_append]

/-- A property is read back as one of its own kind: a name is the only one written as an object. -/
theorem ofTree?_toTree {p : Property} (hfree : p.NumberFree) {depth : Nat}
    (hdepth : p.toValue.NestsWithin depth) : ofTree? depth p.toValue.toTree = some p := by
  induction hfree generalizing depth with
  | ident name =>
      rw [toValue] at hdepth ⊢
      cases hdepth with
      | obj => rfl
  | text s => rfl
  | bool b => rfl
  | list _ ih =>
      rw [toValue, toValues_eq_map] at hdepth ⊢
      cases hdepth with
      | @arr depth _ hitems =>
          rw [List.forall_mem_map] at hitems
          rw [Json.Value.toTree, Json.Value.itemTrees_eq_map, List.map_map, ofTree?]
          have hread := ofItems?_map (fun p hp => ih p hp (hitems p hp)) []
          rw [List.reverse_nil, List.nil_append] at hread
          exact congrArg (Option.map Property.list) hread

end Property

namespace Declaration

/-- A declaration is read back with its properties in order. -/
theorem ofTree?_toTree {d : Declaration} (hfree : ∀ x ∈ Dict.values d, x.NumberFree) {depth : Nat}
    (hdepth : (toValue d).NestsWithin depth) : ofTree? depth (toValue d).toTree = some d :=
  Json.dict?_ofDict hdepth fun x hx _ => Property.ofTree?_toTree (hfree x hx)

/-- A declaration without numbers is written without floating-point numbers. -/
theorem floatFree_toValue {d : Declaration} (hfree : ∀ x ∈ Dict.values d, x.NumberFree) :
    (toValue d).FloatFree :=
  Json.floatFree_ofDict fun x hx => (hfree x hx).floatFree

end Declaration

/-! ### Metadata and programs -/

namespace Metadata

/-- A string that may be missing is read back, and so is its absence. -/
theorem optionalString?_optionalValue (s : Option String) :
    Json.optionalString? (optionalValue s).toTree = some s := by
  cases s <;> rfl

theorem floatFree_optionalValue (s : Option String) : (optionalValue s).FloatFree := by
  cases s with
  | none => exact .null
  | some s => exact .str s

/-- Metadata have no numbers. -/
theorem floatFree_toValue (m : Metadata) : m.toValue.FloatFree := by
  simp [toValue, floatFree_optionalValue]

/-- Metadata are read back, a time that is not known included. -/
theorem ofTree?_toTree {m : Metadata} {depth : Nat} (hdepth : m.toValue.NestsWithin depth) :
    ofTree? depth m.toValue.toTree = some m := by
  have hfields : Json.recordFields? fieldNames m.toValue.toTree = some [some (.str (some m.name)),
      some (optionalValue m.created).toTree, some (optionalValue m.modified).toTree] :=
    Json.recordFields?_obj [("name", .str (some m.name)),
      ("created", (optionalValue m.created).toTree),
      ("modified", (optionalValue m.modified).toTree)]
      (show fieldNames.Nodup by decide)
  cases depth with
  | zero => nomatch hdepth
  | succ depth =>
      have harray : isShortArray m.toValue.toTree = false := rfl
      rw [ofTree?, harray, hfields]
      simp only [Json.field?, Json.string?, optionalString?_optionalValue]
      rfl

end Metadata

namespace Program

/-- A program is written without floating-point numbers if its defines and properties have none. -/
theorem floatFree_toValue {p : Program} (hvalues : ∀ v ∈ p.defines.values, v.FloatFree)
    (hproperties : ∀ d ∈ p.fragments.values ++ p.shaderModules.values, ∀ x ∈ Dict.values d,
      x.NumberFree) :
    p.toValue.FloatFree := by
  rw [List.forall_mem_append] at hproperties
  refine .obj ?_
  simp only [List.forall_mem_cons]
  exact ⟨.str _, p.metadata.floatFree_toValue, Json.floatFree_ofDict hvalues,
    Json.floatFree_ofDict fun d hd => Declaration.floatFree_toValue (hproperties.1 d hd),
    Json.floatFree_ofDict fun d hd => Declaration.floatFree_toValue (hproperties.2 d hd),
    List.forall_mem_nil _⟩

/-- A program is read back from its tree: the record, the metadata, and each of the three
dictionaries. -/
theorem ofTree?_toTree {p : Program} (hvalues : ∀ v ∈ p.defines.values, v.WellFormed ∧ v.FloatFree)
    (hproperties : ∀ d ∈ p.fragments.values ++ p.shaderModules.values, ∀ x ∈ Dict.values d,
      x.NumberFree)
    {depth : Nat} (hdepth : p.toValue.NestsWithin depth) :
    ofTree? depth p.toValue.toTree = some p := by
  have hfields : Json.recordFields? fieldNames p.toValue.toTree =
      some [some (.str (some p.version)), some p.metadata.toValue.toTree,
        some (Json.ofDict id p.defines).toTree,
        some (Json.ofDict Declaration.toValue p.fragments).toTree,
        some (Json.ofDict Declaration.toValue p.shaderModules).toTree] :=
    Json.recordFields?_obj [("version", .str (some p.version)),
      ("metadata", p.metadata.toValue.toTree), ("defines", (Json.ofDict id p.defines).toTree),
      ("wgsl", (Json.ofDict Declaration.toValue p.fragments).toTree),
      ("shaderModules", (Json.ofDict Declaration.toValue p.shaderModules).toTree)]
      (show fieldNames.Nodup by decide)
  rw [List.forall_mem_append] at hproperties
  rw [toValue] at hdepth
  cases hdepth with
  | @obj depth _ hmembers =>
      simp only [List.forall_mem_cons] at hmembers
      obtain ⟨-, hmetadata, hdefines, hfragments, hmodules, -⟩ := hmembers
      have hdefines : Json.dict? Json.Value.ofTree? depth (Json.ofDict id p.defines).toTree =
          some p.defines :=
        Json.dict?_ofDict hdefines fun v hv _ hdepth =>
          Json.Value.ofTree?_toTree hdepth (hvalues v hv).1 (hvalues v hv).2
      have hfragments :
          Json.dict? Declaration.ofTree? depth
            (Json.ofDict Declaration.toValue p.fragments).toTree =
          some p.fragments :=
        Json.dict?_ofDict hfragments fun d hd _ => Declaration.ofTree?_toTree (hproperties.1 d hd)
      have hmodules :
          Json.dict? Declaration.ofTree? depth
            (Json.ofDict Declaration.toValue p.shaderModules).toTree =
          some p.shaderModules :=
        Json.dict?_ofDict hmodules fun d hd _ => Declaration.ofTree?_toTree (hproperties.2 d hd)
      rw [ofTree?, hfields]
      simp only [Json.field?, Json.string?, Metadata.ofTree?_toTree hmetadata, hdefines, hfragments,
        hmodules]
      rfl

/-- Every define of a program that is read has a well-formed value. -/
theorem wellFormed_of_ofTree? {depth : Nat} {t : Json.Tree} {p : Program}
    (h : ofTree? depth t = some p) : ∀ v ∈ p.defines.values, v.WellFormed := by
  unfold ofTree? at h
  split at h
  · cases h
  · split at h
    · next defines _ _ _ =>
        simp only [Option.bind_eq_bind, Option.bind_eq_some_iff, Option.pure_def,
          Option.some.injEq] at h
        obtain ⟨_, -, _, -, found, hfound, _, -, _, -, rfl⟩ := h
        cases defines with
        | none =>
            cases hfound
            exact List.forall_mem_nil _
        | some t =>
            exact Json.forall_of_dict? (fun _ t _ => Json.Value.wellFormed_of_ofTree? t) hfound
    · cases h

/-- **Programs are read back** from their text with everything they hold, in order, as long as no
number has to be rounded and the text is not nested too deep. That the defines have well-formed
values excludes no program that was read itself: the reader gives no others. -/
theorem reads_back :
    (∀ p : Program, (∀ v ∈ p.defines.values, v.WellFormed ∧ v.FloatFree) →
      (∀ d ∈ p.fragments.values ++ p.shaderModules.values, ∀ x ∈ Dict.values d, x.NumberFree) →
      p.toValue.NestsWithin Json.Value.maxDepth → parse? p.render = some p) ∧
    ∀ (text : String) (p : Program), parse? text = some p →
    ∀ v ∈ p.defines.values, v.WellFormed := by
  constructor
  · intro p hvalues hproperties hdepth
    have hfree := floatFree_toValue (fun v hv => (hvalues v hv).2) hproperties
    rw [parse?, render, Json.Tree.parse?_compact hfree, Option.bind_some,
      ofTree?_toTree hvalues hproperties hdepth]
  · intro text p h
    obtain ⟨t, -, ht⟩ := Option.bind_eq_some_iff.mp h
    exact wellFormed_of_ofTree? ht

/-- A program whose text has escapes, numbers at both ends of their range, an object inside a list
and properties of every kind but numbers; `imports` has the same word as a name and as a text. -/
def textSample : Program where
  version := "1.0"
  metadata := ⟨"a \"quoted\" \\ name", some "\x07 é\n", none⟩
  defines :=
    ⟨[("LOW", .num (.int (-9223372036854775808))), ("HIGH", .num (.int 18446744073709551615)),
    ("LIST", .arr [.null, .obj [("a", .bool true), ("b", .str "")]])], by decide⟩
  fragments :=
    ⟨[("two", ⟨[("imports", .list [.ident "one", .text "one", .list [.bool false]])], by decide⟩),
    ("one", ⟨[("value", .text "\x7b\"ident\":\"one\"\x7d")], by decide⟩)], by decide⟩
  shaderModules := ⟨[("main", ⟨[("code", .ident "two")], by decide⟩)], by decide⟩

/-- The sample meets all conditions and is read back. -/
theorem textSample_reads_back :
    (∀ v ∈ textSample.defines.values, v.WellFormed ∧ v.FloatFree) ∧
      (∀ d ∈ textSample.fragments.values ++ textSample.shaderModules.values, ∀ x ∈ Dict.values d,
        x.NumberFree) ∧
      textSample.toValue.NestsWithin Json.Value.maxDepth ∧
      parse? textSample.render = some textSample := by
  have hobject : (Json.Value.obj [("a", .bool true), ("b", .str "")]).WellFormed :=
    .obj (by decide) (by simp)
  have hvalues : ∀ v ∈ textSample.defines.values, v.WellFormed ∧ v.FloatFree := by
    simp [textSample, Dict.values, hobject, -Json.Value.wellFormed_obj_iff]
  have hproperties : ∀ d ∈ textSample.fragments.values ++ textSample.shaderModules.values,
      ∀ x ∈ Dict.values d, x.NumberFree := by
    simp [textSample, Dict.values]
  have hdepth : textSample.toValue.NestsWithin Json.Value.maxDepth := by
    simp [textSample, toValue, Metadata.toValue, Metadata.optionalValue, Json.ofDict,
      Declaration.toValue, Property.toValue, Property.toValues, Json.Value.maxDepth]
  exact ⟨hvalues, hproperties, hdepth, reads_back.1 textSample hvalues hproperties hdepth⟩

end Program

end ShaderPack
