import ShaderPack.Define.Expansion
import ShaderPack.Proofs.Runs

/-!
# Expansion sees values, not their order

Expansion asks for the values of names and for nothing else, so two programs that give the same
values to the same names expand every text alike, in whatever order they give them.

* `Utf8.encode_injective`: different names stay different as bytes.
* `Defines.expand_congr`: the values of names determine every expansion.
* `Defines.expand_ofTexts`: so does the mapping from which they were made.
-/

namespace ShaderPack

/-- Encoding a text gives the bytes that it is held as. -/
theorem Utf8.toByteArray_encode (s : String) : (encode s).toByteArray = s.toByteArray := by
  rw [← String.ofList_toList (s := s), String.toByteArray_ofList, String.ofList_toList]
  rfl

/-- Texts with the same bytes are the same. -/
theorem Utf8.encode_injective : Function.Injective Utf8.encode := by
  intro s t h
  rw [← String.toByteArray_inj, ← toByteArray_encode, ← toByteArray_encode, h]

namespace Dict

variable {κ α : Type} [DecidableEq κ]

/-- Inserting new keys adds their entries at the end. -/
theorem entries_foldl_insert (es : List (κ × α)) (d : Dict κ α)
    (h : ((d.entries ++ es).map Prod.fst).Nodup) :
    (es.foldl (fun d e => d.insert e.1 e.2) d).entries = d.entries ++ es := by
  induction es generalizing d with
  | nil => simp
  | cons e es ih =>
      have hnew : e.1 ∉ d.keys := by
        intro hmem
        rw [List.map_append] at h
        exact (List.nodup_append.mp h).2.2 _ hmem _ (by simp) rfl
      have hentries := d.entries_insert_of_not_mem e.2 hnew
      rw [List.foldl_cons, ih (d.insert e.1 e.2), hentries, List.append_assoc,
        List.singleton_append]
      rw [hentries, List.append_assoc, List.singleton_append]
      exact h

/-- A dictionary from entries with different keys has just these entries. -/
theorem entries_ofList {es : List (κ × α)} (h : (es.map Prod.fst).Nodup) :
    (ofList es).entries = es :=
  entries_foldl_insert es empty h

/-- Looking a key up in the entries finds what the dictionary has for it. -/
theorem lookup_entries [BEq κ] [LawfulBEq κ] (d : Dict κ α) (k : κ) :
    d.entries.lookup k = d.find? k := by
  unfold find?
  induction d.entries with
  | nil => rfl
  | cons e es ih =>
      rw [List.lookup_cons, List.find?_cons]
      by_cases hk : e.1 = k
      · simp [hk]
      · have hbeq : (k == e.1) = false := beq_eq_false_iff_ne.mpr fun h => hk h.symm
        simp [hk, hbeq, ih]

end Dict

namespace Defines

variable {d d' : Defines}

/-- A name has a value as bytes if some text for the name has one. -/
theorem find?_ofTexts (values : Dict String String) (name value : Bytes) :
    (ofTexts values).find? name = some value ↔
      ∃ x y, values.find? x = some y ∧ Utf8.encode x = name ∧ Utf8.encode y = value := by
  have hnodup :
      ((values.entries.map fun e => (Utf8.encode e.1, Utf8.encode e.2)).map Prod.fst).Nodup := by
    rw [List.map_map]
    have := values.nodup.map Utf8.encode_injective
    rwa [List.map_map] at this
  rw [Dict.find?_eq_some_iff, ofTexts, Dict.entries_ofList hnodup, List.mem_map]
  constructor
  · rintro ⟨e, he, heq⟩
    obtain ⟨hname, hvalue⟩ := Prod.mk.inj heq
    exact ⟨e.1, e.2, (Dict.find?_eq_some_iff _ _ _).mpr he, hname, hvalue⟩
  · rintro ⟨x, y, hxy, rfl, rfl⟩
    exact ⟨(x, y), (Dict.find?_eq_some_iff _ _ _).mp hxy, rfl⟩

/-- The values of names do not depend on the order in which they were given. -/
theorem value?_ofTexts {values values' : Dict String String}
    (h : ∀ name, values'.find? name = values.find? name) (name : Bytes) :
    (ofTexts values').value? name = (ofTexts values).value? name := by
  have hfind : (ofTexts values').find? name = (ofTexts values).find? name := by
    apply Option.ext
    intro value
    rw [find?_ofTexts, find?_ofTexts]
    simp only [h]
  unfold value?
  rw [Dict.lookup_entries, Dict.lookup_entries, hfind]

/-- A scan sees nothing of the defines but the values of names. -/
theorem scanFrom_congr (h : ∀ name, d'.value? name = d.value? name) (quoted : Bool)
    (word out : Bytes) (room : Nat) (text : Bytes) :
    d'.scanFrom quoted word out room text = d.scanFrom quoted word out room text := by
  have himage : ∀ quoted word after, d'.image quoted word after = d.image quoted word after := by
    intro quoted word after
    unfold image
    rw [h]
  induction text generalizing quoted word out room with
  | nil =>
      unfold scanFrom
      rw [himage]
  | cons b rest ih =>
      unfold scanFrom
      simp only [himage, ih]

/-- Nor do passes over a text. -/
theorem expandFrom_congr (h : ∀ name, d'.value? name = d.value? name) (passes : Nat)
    (text : Bytes) :
    d'.expandFrom passes text = d.expandFrom passes text := by
  have hpass : ∀ text, d'.pass text = d.pass text := by
    intro text
    unfold pass replaced?
    rw [scanFrom_congr h]
  induction passes generalizing text with
  | zero => rfl
  | succ passes ih =>
      unfold expandFrom
      simp only [hpass, ih]

/-- Expansion depends on the values of names only. -/
theorem expand_congr (h : ∀ name, d'.value? name = d.value? name) (text : Bytes) :
    d'.expand text = d.expand text :=
  expandFrom_congr h passLimit text

/-- Mappings that give the same values to names expand every text alike. -/
theorem expand_ofTexts {values values' : Dict String String}
    (h : ∀ name, values'.find? name = values.find? name) (text : Bytes) :
    (ofTexts values').expand text = (ofTexts values).expand text :=
  expand_congr (value?_ofTexts h) text

end Defines

end ShaderPack
