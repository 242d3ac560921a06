import ShaderPack.Json.Value
import ShaderPack.Proofs.JsonTokens

/-!
# Values read back

The text of a value is made of tokens, and the tokens make a tree again. That tree is the value
spelled out, so reading it gives the value itself, as long as there was nothing to round (no
floating-point number), nothing to sort (the keys of every object ascend) and enough depth.

* `Value.foldlM_tokens`: the tokens of a value make its tree, whatever is open around it.
* `Tree.parse?_compact`: the text of a value without floating-point numbers stands for the value's
  tree.
* `Value.ofTree?_toTree`: the tree of a well-formed value without floating-point numbers, read with
  the depth that it needs, gives the value.
* `Value.wellFormed_of_ofTree?`: no other values than well-formed ones are ever read.
-/

namespace ShaderPack

namespace Json

namespace Value

/-! ### Trees -/

mutual

/-- The tree of a value: numbers are spelled out. -/
def toTree : Value → Tree
  | .null => .null
  | .bool b => .bool b
  | .num n => .num n.toNumeral
  | .str s => .str (some s)
  | .arr items => .arr (itemTrees items)
  | .obj members => .obj (memberTrees members)

/-- The trees of the items of an array. -/
def itemTrees : List Value → List Tree
  | [] => []
  | v :: rest => v.toTree :: itemTrees rest

/-- The trees of the members of an object, with their keys. -/
def memberTrees : List (String × Value) → Tree.Members
  | [] => []
  | (k, v) :: rest => (some k, v.toTree) :: memberTrees rest

end

theorem itemTrees_eq_map (items : List Value) : itemTrees items = items.map toTree := by
  induction items with
  | nil => rfl
  | cons v rest ih => rw [itemTrees, ih, List.map_cons]

theorem memberTrees_eq_map (members : List (String × Value)) :
    memberTrees members = members.map fun m => (some m.1, m.2.toTree) := by
  induction members with
  | nil => rfl
  | cons m rest ih => rw [memberTrees, ih, List.map_cons]

/-- No text of a value starts with the end of an array. -/
theorem exists_cons_tokens (v : Value) : ∃ t ts, v.tokens = t :: ts ∧ t ≠ .closeArray := by
  cases v with
  | arr items => cases items <;> exact ⟨.openArray, _, rfl, by decide⟩
  | obj members => cases members <;> exact ⟨.openObject, _, rfl, by decide⟩
  | _ => exact ⟨_, _, rfl, by simp⟩

/-- Where the first item of an array can come, any value can. -/
theorem foldlM_tokens_first (v : Value) (stack : List Tree.Frame) :
    v.tokens.foldlM Tree.step (.first stack) =
      v.tokens.foldlM Tree.step (.value (.items [] :: stack)) := by
  obtain ⟨t, ts, hts, hne⟩ := v.exists_cons_tokens
  have hstep : Tree.step (.first stack) t = Tree.step (.value (.items [] :: stack)) t := by
    cases t with
    | closeArray => exact absurd rfl hne
    | _ => rfl
  rw [hts, List.foldlM_cons, List.foldlM_cons, hstep]

-- In every case the token at the front is taken by `rfl`; what is open then is what the lemma for
-- the rest asks for.
mutual

/-- The tokens of a value make its tree, whatever is open around it. -/
theorem foldlM_tokens (stack : List Tree.Frame) :
    (v : Value) → v.tokens.foldlM Tree.step (.value stack) = some (.done v.toTree stack)
  | .null => rfl
  | .bool _ => rfl
  | .num _ => rfl
  | .str _ => rfl
  | .arr [] => rfl
  | .arr (v :: rest) => by
      rw [tokens, List.foldlM_cons]
      change (v.tokens ++ itemTokens rest).foldlM Tree.step (.first stack) = _
      rw [List.foldlM_append, foldlM_tokens_first, foldlM_tokens _ v]
      exact foldlM_itemTokens stack v.toTree [] rest
  | .obj [] => rfl
  | .obj ((k, v) :: rest) => by
      rw [tokens, List.foldlM_cons]
      change (v.tokens ++ memberTokens rest).foldlM Tree.step
        (.value (.member [] (some k) :: stack)) = _
      rw [List.foldlM_append, foldlM_tokens _ v]
      exact foldlM_memberTokens stack (some k) v.toTree [] rest

/-- The tokens behind an item complete the array. -/
theorem foldlM_itemTokens (stack : List Tree.Frame) (t : Tree) (found : List Tree) :
    (rest : List Value) → (itemTokens rest).foldlM Tree.step (.done t (.items found :: stack)) =
      some (.done (.arr ((t :: found).reverse ++ itemTrees rest)) stack)
  | [] => by
      rw [itemTokens, itemTrees, List.append_nil]
      rfl
  | v :: rest => by
      rw [itemTokens, List.foldlM_cons]
      change (v.tokens ++ itemTokens rest).foldlM Tree.step
        (.value (.items (t :: found) :: stack)) = _
      rw [List.foldlM_append, foldlM_tokens _ v]
      refine (foldlM_itemTokens stack v.toTree (t :: found) rest).trans ?_
      rw [itemTrees, List.reverse_cons, List.append_assoc, List.singleton_append]

/-- The tokens behind a member complete the object. -/
theorem foldlM_memberTokens (stack : List Tree.Frame) (key : Option String) (t : Tree)
    (found : Tree.Members) : (rest : List (String × Value)) →
      (memberTokens rest).foldlM Tree.step (.done t (.member found key :: stack)) =
        some (.done (.obj (((key, t) :: found).reverse ++ memberTrees rest)) stack)
  | [] => by
      rw [memberTokens, memberTrees, List.append_nil]
      rfl
  | (k, v) :: rest => by
      rw [memberTokens, List.foldlM_cons]
      change (v.tokens ++ memberTokens rest).foldlM Tree.step
        (.value (.member ((key, t) :: found) (some k) :: stack)) = _
      rw [List.foldlM_append, foldlM_tokens _ v]
      refine (foldlM_memberTokens stack (some k) v.toTree ((key, t) :: found) rest).trans ?_
      rw [memberTrees, List.reverse_cons, List.append_assoc, List.singleton_append]

end

/-- The tokens of a value make its tree, with nothing left open. -/
theorem ofTokens?_tokens (v : Value) : Tree.ofTokens? v.tokens = some v.toTree := by
  rw [Tree.ofTokens?, foldlM_tokens]

end Value

/-! ### Texts -/

namespace Token

/-- A mark can stand in front of anything. -/
theorem isChain_cons_mark {t : Token} {ts : List Token} (ht : t.isMark) (hts : ts.IsChain Joins) :
    (t :: ts).IsChain Joins :=
  hts.cons fun _ _ => .inl ht

/-- Tokens that start with a mark can stand behind any others. -/
theorem isChain_append_mark {ts us : List Token} (hts : ts.IsChain Joins) (hus : us.IsChain Joins)
    (hmark : ∀ u ∈ us.head?, u.isMark) : (ts ++ us).IsChain Joins :=
  hts.append hus fun _ _ u hu => .inr (.inr (hmark u hu))

/-- A key and its colon can stand before anything. -/
theorem isChain_key (k : String) {ts : List Token} (hts : ts.IsChain Joins) :
    (str (some k) :: colon :: ts).IsChain Joins :=
  (isChain_cons_mark rfl hts).cons fun _ _ => .inr (.inl ⟨_, rfl⟩)

end Token

namespace Value

/-- Behind an item comes a comma or a bracket. -/
theorem isMark_head_itemTokens (rest : List Value) : ∀ t ∈ (itemTokens rest).head?, t.isMark := by
  cases rest <;> simp [itemTokens, Token.isMark]

/-- Behind a member comes a comma or a brace. -/
theorem isMark_head_memberTokens (rest : List (String × Value)) :
    ∀ t ∈ (memberTokens rest).head?, t.isMark := by
  cases rest <;> simp [memberTokens, Token.isMark]

mutual

/-- Each token of a value can stand behind the one before it. -/
theorem isChain_tokens : (v : Value) → v.tokens.IsChain Token.Joins
  | .null => .singleton _
  | .bool _ => .singleton _
  | .num _ => .singleton _
  | .str _ => .singleton _
  | .arr [] => Token.isChain_cons_mark rfl (.singleton _)
  | .arr (v :: rest) => Token.isChain_cons_mark rfl
      (Token.isChain_append_mark (isChain_tokens v) (isChain_itemTokens rest)
        (isMark_head_itemTokens rest))
  | .obj [] => Token.isChain_cons_mark rfl (.singleton _)
  | .obj ((k, v) :: rest) => Token.isChain_cons_mark rfl (Token.isChain_key k
      (Token.isChain_append_mark (isChain_tokens v) (isChain_memberTokens rest)
        (isMark_head_memberTokens rest)))

/-- No two tokens of the items of an array run together. -/
theorem isChain_itemTokens : (rest : List Value) → (itemTokens rest).IsChain Token.Joins
  | [] => .singleton _
  | v :: rest => Token.isChain_cons_mark rfl
      (Token.isChain_append_mark (isChain_tokens v) (isChain_itemTokens rest)
        (isMark_head_itemTokens rest))

/-- No two tokens of the members of an object run together. -/
theorem isChain_memberTokens : (rest : List (String × Value)) →
    (memberTokens rest).IsChain Token.Joins
  | [] => .singleton _
  | (k, v) :: rest => Token.isChain_cons_mark rfl (Token.isChain_key k
      (Token.isChain_append_mark (isChain_tokens v) (isChain_memberTokens rest)
        (isMark_head_memberTokens rest)))

end

/-- There is no floating-point number in the value. -/
inductive FloatFree : Value → Prop
  | null : FloatFree .null
  | bool (b : Bool) : FloatFree (.bool b)
  | int (n : Int) : FloatFree (.num (.int n))
  | str (s : String) : FloatFree (.str s)
  | arr {items : List Value} (hitems : ∀ v ∈ items, FloatFree v) : FloatFree (.arr items)
  | obj {members : List (String × Value)} (hmembers : ∀ m ∈ members, FloatFree m.2) :
      FloatFree (.obj members)

attribute [simp] FloatFree.null FloatFree.bool FloatFree.int FloatFree.str

@[simp] theorem floatFree_arr_iff {items : List Value} :
    FloatFree (.arr items) ↔ ∀ v ∈ items, v.FloatFree :=
  ⟨fun | .arr hitems => hitems, .arr⟩

@[simp] theorem floatFree_obj_iff {members : List (String × Value)} :
    FloatFree (.obj members) ↔ ∀ m ∈ members, m.2.FloatFree :=
  ⟨fun | .obj hmembers => hmembers, .obj⟩

/-- If the tokens of all items can be read back, so can those of the array from there on. -/
theorem readable_itemTokens {rest : List Value} (h : ∀ v ∈ rest, ∀ t ∈ v.tokens, t.Readable) :
    ∀ t ∈ itemTokens rest, t.Readable := by
  induction rest with
  | nil => exact List.forall_mem_singleton.mpr trivial
  | cons v rest ih =>
      rw [List.forall_mem_cons] at h
      rw [itemTokens, List.forall_mem_cons, List.forall_mem_append]
      exact ⟨trivial, h.1, ih h.2⟩

/-- The same for the members of an object, whose keys can always be read back. -/
theorem readable_memberTokens {rest : List (String × Value)}
    (h : ∀ m ∈ rest, ∀ t ∈ m.2.tokens, t.Readable) : ∀ t ∈ memberTokens rest, t.Readable := by
  induction rest with
  | nil => exact List.forall_mem_singleton.mpr trivial
  | cons m rest ih =>
      rw [List.forall_mem_cons] at h
      rw [memberTokens, List.forall_mem_cons, List.forall_mem_cons, List.forall_mem_cons,
        List.forall_mem_append]
      exact ⟨trivial, rfl, trivial, h.1, ih h.2⟩

/-- Without floating-point numbers, each token of a value can be read. -/
theorem FloatFree.readable {v : Value} (h : v.FloatFree) : ∀ t ∈ v.tokens, t.Readable := by
  induction h with
  | null => exact List.forall_mem_singleton.mpr trivial
  | bool b => exact List.forall_mem_singleton.mpr trivial
  | int n =>
      exact List.forall_mem_singleton.mpr
        ⟨Number.ofChars?_intNumeral n, fun _ => Number.isNumeric_of_mem_intNumeral⟩
  | str s => exact List.forall_mem_singleton.mpr rfl
  | @arr items _ ih =>
      cases items with
      | nil => exact List.forall_mem_cons.mpr ⟨trivial, List.forall_mem_singleton.mpr trivial⟩
      | cons v rest =>
          rw [List.forall_mem_cons] at ih
          rw [tokens, List.forall_mem_cons, List.forall_mem_append]
          exact ⟨trivial, ih.1, readable_itemTokens ih.2⟩
  | @obj members _ ih =>
      cases members with
      | nil => exact List.forall_mem_cons.mpr ⟨trivial, List.forall_mem_singleton.mpr trivial⟩
      | cons m rest =>
          rw [List.forall_mem_cons] at ih
          rw [tokens, List.forall_mem_cons, List.forall_mem_cons, List.forall_mem_cons,
            List.forall_mem_append]
          exact ⟨trivial, rfl, trivial, ih.1, readable_memberTokens ih.2⟩

end Value

/-- The text of a value stands for the value's tree. -/
theorem Tree.parse?_compact {v : Value} (h : v.FloatFree) :
    Tree.parse? v.compact = some v.toTree := by
  rw [Tree.parse?, Value.compact, String.toList_ofList,
    Token.lex?_flatMap_render h.readable v.isChain_tokens, Option.bind_some, Value.ofTokens?_tokens]

namespace Value

/-! ### Meaning -/

/-- Whole numbers fit 64 bits, with or without a sign, and the keys of every object ascend. -/
inductive WellFormed : Value → Prop
  | null : WellFormed .null
  | bool (b : Bool) : WellFormed (.bool b)
  | int {n : Int} (hlow : -2 ^ 63 ≤ n) (hhigh : n < 2 ^ 64) : WellFormed (.num (.int n))
  | float (x : Float) : WellFormed (.num (.float x))
  | str (s : String) : WellFormed (.str s)
  | arr {items : List Value} (hitems : ∀ v ∈ items, WellFormed v) : WellFormed (.arr items)
  | obj {members : List (String × Value)} (hkeys : (members.map Prod.fst).Pairwise (· < ·))
      (hmembers : ∀ m ∈ members, WellFormed m.2) : WellFormed (.obj members)

attribute [simp] WellFormed.null WellFormed.bool WellFormed.float WellFormed.str

@[simp] theorem wellFormed_int_iff {n : Int} :
    WellFormed (.num (.int n)) ↔ -2 ^ 63 ≤ n ∧ n < 2 ^ 64 :=
  ⟨fun | .int hlow hhigh => ⟨hlow, hhigh⟩, fun h => .int h.1 h.2⟩

@[simp] theorem wellFormed_arr_iff {items : List Value} :
    WellFormed (.arr items) ↔ ∀ v ∈ items, v.WellFormed :=
  ⟨fun | .arr hitems => hitems, .arr⟩

@[simp] theorem wellFormed_obj_iff {members : List (String × Value)} :
    WellFormed (.obj members) ↔
      (members.map Prod.fst).Pairwise (· < ·) ∧ ∀ m ∈ members, m.2.WellFormed :=
  ⟨fun | .obj hkeys hmembers => ⟨hkeys, hmembers⟩, fun h => .obj h.1 h.2⟩

/-- The value nests at most so many arrays and objects. -/
inductive NestsWithin : Nat → Value → Prop
  | null {depth : Nat} : NestsWithin depth .null
  | bool {depth : Nat} (b : Bool) : NestsWithin depth (.bool b)
  | num {depth : Nat} (n : Number) : NestsWithin depth (.num n)
  | str {depth : Nat} (s : String) : NestsWithin depth (.str s)
  | arr {depth : Nat} {items : List Value} (hitems : ∀ v ∈ items, NestsWithin depth v) :
      NestsWithin (depth + 1) (.arr items)
  | obj {depth : Nat} {members : List (String × Value)}
      (hmembers : ∀ m ∈ members, NestsWithin depth m.2) : NestsWithin (depth + 1) (.obj members)

attribute [simp] NestsWithin.null NestsWithin.bool NestsWithin.num NestsWithin.str

@[simp] theorem nestsWithin_arr_iff {depth : Nat} {items : List Value} :
    NestsWithin (depth + 1) (.arr items) ↔ ∀ v ∈ items, v.NestsWithin depth :=
  ⟨fun | .arr hitems => hitems, .arr⟩

@[simp] theorem nestsWithin_obj_iff {depth : Nat} {members : List (String × Value)} :
    NestsWithin (depth + 1) (.obj members) ↔ ∀ m ∈ members, m.2.NestsWithin depth :=
  ⟨fun | .obj hmembers => hmembers, .obj⟩

/-- Items that are read back one by one are read back as a list. -/
theorem ofItems?_itemTrees {depth : Nat} {items : List Value}
    (hread : ∀ v ∈ items, ofTree? depth v.toTree = some v) (found : List Value) :
    ofItems? depth found (itemTrees items) = some (found.reverse ++ items) := by
  induction items generalizing found with
  | nil => rw [itemTrees, ofItems?, List.append_nil]
  | cons v rest ih =>
      rw [List.forall_mem_cons] at hread
      rw [itemTrees, ofItems?, hread.1]
      refine (ih hread.2 (v :: found)).trans ?_
      rw [List.reverse_cons, List.append_assoc, List.singleton_append]

/-- A key greater than all keys goes to the end. -/
theorem insertMember_of_lt {k : String} {v : Value} {found : List (String × Value)}
    (h : ∀ m ∈ found, m.1 < k) : insertMember k v found = found ++ [(k, v)] := by
  induction found with
  | nil => rfl
  | cons m rest ih =>
      rw [List.forall_mem_cons] at h
      rw [insertMember, if_neg (String.lt_asymm h.1), if_neg (String.ne_of_lt h.1).symm, ih h.2,
        List.cons_append]

/-- Members with ascending keys are read back in their order: each goes behind those that have been
found. -/
theorem ofMembers?_memberTrees {depth : Nat} {members : List (String × Value)}
    (hread : ∀ m ∈ members, ofTree? depth m.2.toTree = some m.2) (found : List (String × Value))
    (hkeys : ((found ++ members).map Prod.fst).Pairwise (· < ·)) :
    ofMembers? depth found (memberTrees members) = some (found ++ members) := by
  induction members generalizing found with
  | nil => rw [memberTrees, ofMembers?, List.append_nil]
  | cons m rest ih =>
      -- the keys ascend, so this member goes behind all that were found
      have hlast : ∀ f ∈ found, f.1 < m.1 := by
        intro f hf
        rw [List.map_append, List.pairwise_append] at hkeys
        exact hkeys.2.2 f.1 (List.mem_map_of_mem hf) m.1 (List.mem_map_of_mem List.mem_cons_self)
      rw [List.forall_mem_cons] at hread
      rw [memberTrees, ofMembers?, hread.1]
      refine (ih hread.2 (insertMember m.1 m.2 found) ?_).trans ?_ <;>
        rw [insertMember_of_lt hlast, List.append_assoc, List.singleton_append]
      exact hkeys

/-- The tree of a value gives the value again. -/
theorem ofTree?_toTree {depth : Nat} {v : Value} (hdepth : v.NestsWithin depth)
    (hwell : v.WellFormed) (hfree : v.FloatFree) : ofTree? depth v.toTree = some v := by
  -- on the nesting and not on the value: the reader's depth goes down along with it
  induction hdepth with
  | null => rfl
  | bool b => rfl
  | num n =>
      cases hfree with
      | int n =>
          rw [wellFormed_int_iff] at hwell
          rw [toTree, Number.toNumeral, ofTree?, Number.value?_intNumeral hwell.1 hwell.2,
            Option.map_some]
  | str s => rfl
  | arr _ ih =>
      rw [wellFormed_arr_iff] at hwell
      rw [floatFree_arr_iff] at hfree
      rw [toTree, ofTree?, ofItems?_itemTrees fun v hv => ih v hv (hwell v hv) (hfree v hv)]
      rfl
  | obj _ ih =>
      rw [wellFormed_obj_iff] at hwell
      rw [floatFree_obj_iff] at hfree
      rw [toTree, ofTree?,
        ofMembers?_memberTrees (fun m hm => ih m hm (hwell.2 m hm) (hfree m hm)) [] hwell.1]
      rfl

end Value

/-! ### What is read at all -/

namespace Numeral

/-- A further digit does not take a significand beyond 64 bits. -/
theorem value_pushWhole_le {s : Significand} (h : s.value ≤ maxSignificand) (c : Char) :
    (s.pushWhole c).value ≤ maxSignificand := by
  unfold Significand.pushWhole
  dsimp only
  split
  · exact h
  · next hfits =>
      rw [Bool.or_eq_true, not_or, decide_eq_true_eq] at hfits
      exact Nat.not_lt.mp hfits.2

/-- So no digits do. -/
theorem value_foldl_pushWhole_le (cs : List Char) {s : Significand}
    (h : s.value ≤ maxSignificand) :
    (cs.foldl Significand.pushWhole s).value ≤ maxSignificand := by
  induction cs generalizing s with
  | nil => exact h
  | cons c cs ih => exact ih (value_pushWhole_le h c)

/-- Whole numbers are read within 64 bits. -/
theorem bounds_of_int? {n : Numeral} {i : Int} (h : n.int? = some i) :
    -2 ^ 63 ≤ i ∧ i < 2 ^ 64 := by
  have hvalue : n.wholeSignificand.value ≤ maxSignificand :=
    value_foldl_pushWhole_le n.whole (Nat.zero_le _)
  simp only [maxSignificand, UInt64.size] at hvalue
  unfold int? at h
  dsimp only at h
  split at h
  · cases h
  · split at h
    · cases h
      omega
    · split at h
      · cases h
      · next hneg =>
          cases h
          simp only [UInt64.size, Bool.or_eq_true, decide_eq_true_eq] at hneg
          omega

end Numeral

namespace Value

/-- A number that is read is in the range of well-formed numbers. -/
theorem wellFormed_of_value? {n : Numeral} {x : Number} (h : n.value? = some x) :
    WellFormed (.num x) := by
  unfold Numeral.value? at h
  split at h
  · next i hi =>
      cases h
      exact .int (Numeral.bounds_of_int? hi).1 (Numeral.bounds_of_int? hi).2
  · obtain ⟨x, -, rfl⟩ := Option.map_eq_some_iff.mp h
    exact .float x

/-- A sorted list has no other members after a key was given its value than before, and this one. -/
theorem mem_insertMember {k : String} {v : Value} {found : List (String × Value)}
    {m : String × Value} (h : m ∈ insertMember k v found) : m = (k, v) ∨ m ∈ found := by
  induction found with
  | nil => exact .inl (List.mem_singleton.mp h)
  | cons m' rest ih =>
      rw [insertMember] at h
      split at h
      · exact List.mem_cons.mp h
      · split at h
        · exact (List.mem_cons.mp h).imp_right (List.mem_cons_of_mem _)
        · obtain rfl | h := List.mem_cons.mp h
          · exact .inr List.mem_cons_self
          · exact (ih h).imp_right (List.mem_cons_of_mem _)

/-- Putting a member in keeps the keys ascending. -/
theorem pairwise_insertMember (k : String) (v : Value) {found : List (String × Value)}
    (h : (found.map Prod.fst).Pairwise (· < ·)) :
    ((insertMember k v found).map Prod.fst).Pairwise (· < ·) := by
  induction found with
  | nil => exact List.pairwise_singleton _ _
  | cons m rest ih =>
      have hrest := List.pairwise_cons.mp h
      rw [insertMember]
      split
      · next hlt =>
          refine List.pairwise_cons.mpr ⟨?_, h⟩
          intro k' hk'
          obtain rfl | hk' := List.mem_cons.mp hk'
          · exact hlt
          · exact String.lt_trans hlt (hrest.1 k' hk')
      · next hnot =>
          split
          · next heq =>
              subst heq
              exact List.pairwise_cons.mpr hrest
          · next hne =>
              refine List.pairwise_cons.mpr ⟨?_, ih hrest.2⟩
              intro k' hk'
              obtain ⟨m', hm', rfl⟩ := List.mem_map.mp hk'
              obtain rfl | hm' := mem_insertMember hm'
              · exact String.not_le.mp fun hle =>
                  hne (String.le_antisymm hle (String.not_lt.mp hnot))
              · exact hrest.1 m'.1 (List.mem_map_of_mem hm')

mutual

/-- Reading gives well-formed values only. -/
theorem wellFormed_of_ofTree? {depth : Nat} {v : Value} : (t : Tree) → ofTree? depth t = some v →
    v.WellFormed
  | .null, h => by
      cases h
      exact .null
  | .bool b, h => by
      cases h
      exact .bool b
  | .num n, h => by
      obtain ⟨x, hx, rfl⟩ := Option.map_eq_some_iff.mp h
      exact wellFormed_of_value? hx
  | .str s, h => by
      obtain ⟨s, -, rfl⟩ := Option.map_eq_some_iff.mp h
      exact .str s
  | .arr items, h => by
      cases depth with
      | zero => cases h
      | succ depth =>
          obtain ⟨vs, hvs, rfl⟩ := Option.map_eq_some_iff.mp h
          exact .arr (wellFormed_of_ofItems? items (by simp) hvs)
  | .obj members, h => by
      cases depth with
      | zero => cases h
      | succ depth =>
          obtain ⟨ms, hms, rfl⟩ := Option.map_eq_some_iff.mp h
          obtain ⟨hkeys, hwell⟩ := wellFormed_of_ofMembers? members List.Pairwise.nil (by simp) hms
          exact .obj hkeys hwell

/-- The items of an array that is read are well-formed. -/
theorem wellFormed_of_ofItems? {depth : Nat} {found vs : List Value} :
    (items : List Tree) → (∀ v ∈ found, v.WellFormed) → ofItems? depth found items = some vs →
      ∀ v ∈ vs, v.WellFormed
  | [], hfound, h => by
      cases h
      exact fun v hv => hfound v (List.mem_reverse.mp hv)
  | t :: rest, hfound, h => by
      rw [ofItems?] at h
      split at h
      · cases h
      · next v hv =>
          exact wellFormed_of_ofItems? rest
            (List.forall_mem_cons.mpr ⟨wellFormed_of_ofTree? t hv, hfound⟩) h

/-- The members of an object that is read are well-formed, and their keys ascend. -/
theorem wellFormed_of_ofMembers? {depth : Nat} {found ms : List (String × Value)} :
    (members : Tree.Members) → (found.map Prod.fst).Pairwise (· < ·) →
      (∀ m ∈ found, m.2.WellFormed) →
      ofMembers? depth found members = some ms →
      (ms.map Prod.fst).Pairwise (· < ·) ∧ ∀ m ∈ ms, m.2.WellFormed
  | [], hkeys, hfound, h => by
      cases h
      exact ⟨hkeys, hfound⟩
  | (none, _) :: _, _, _, h => by cases h
  | (some k, t) :: rest, hkeys, hfound, h => by
      rw [ofMembers?] at h
      split at h
      · cases h
      · next v hv =>
          refine wellFormed_of_ofMembers? rest (pairwise_insertMember k v hkeys) ?_ h
          intro m hm
          obtain rfl | hm := mem_insertMember hm
          · exact wellFormed_of_ofTree? t hv
          · exact hfound m hm

end

end Value

end Json

end ShaderPack
