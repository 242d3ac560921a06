import ShaderPack.Proofs.Outcome

/-!
# One run over all declarations

The assembly of a program is one run over its declarations, fragments first
(`Program.assembleWith_eq`). What is said here of such a run holds for any number of declarations:
whatever is stored has a byte at least, and the pool of bytes is bounded, so that no id of a blob or
a module wraps around (`Assembly.Intact`).

* `Assembly.pendingCode?`: the flattened code that a declaration gets if it is taken in next.
* `Assembly.resolvedCode?`: the flattened code of a declaration that has been taken in. For a
  fragment it was kept; for a shader module it is what the tables give.
* `Intact.taken`: a declaration that is taken in has the code that was pending, and a handle exactly
  if there is such code.
* `Intact.resolvedCode?_take`: taking in a later declaration does not change this, so a whole run
  does not (`Ready.taken_run`).
-/

namespace ShaderPack

/-- A declaration with its kind and its name. -/
structure Declared where
  /-- The kind. -/
  kind : Kind
  /-- The name. -/
  name : String
  /-- The declaration. -/
  declaration : Declaration

namespace Declared

/-- The kind and the name. -/
def key (x : Declared) : Kind × String := (x.kind, x.name)

/-- The fragment whose code a declaration uses. -/
def target? (x : Declared) : Option String :=
  match x.kind with
  | .fragment => none
  | .shaderModule => Declaration.target? x.declaration

/-- The text of the code that a declaration has of its own. -/
def text? (x : Declared) : Option String :=
  match x.kind with
  | .fragment => some (Declaration.fragmentCode x.declaration)
  | .shaderModule => Declaration.inlineCode? x.declaration

/-- `x` can be taken in before `y`: they are not the same, and fragments come first. -/
def Before (x y : Declared) : Prop :=
  x.key ≠ y.key ∧ (x.kind = .shaderModule → y.kind = .shaderModule)

end Declared

namespace Assembly

variable {s : Setting} {a b c : Assembly} {x y : Declared} {name : String} {d : Declaration}
  {code : Bytes}

/-- Take in a declaration. -/
def take (s : Setting) (a : Assembly) (x : Declared) : Except Failure Assembly :=
  match x.kind with
  | .fragment => a.addFragment s x.name x.declaration
  | .shaderModule => a.addShaderModule s x.name x.declaration

/-- The flattened code of a text with imports, if the text stands for code. -/
def flattened? (s : Setting) (a : Assembly) (raw : String) (imports : List String) : Option Bytes :=
  match s.expand raw with
  | .error _ => none
  | .ok own =>
    if own.text.isEmpty then none
    else some (a.table.flatten a.container.blobs (a.table.importIds imports) own.text)

/-- The flattened code that a declaration gets if it is taken in next. -/
def pendingCode? (s : Setting) (a : Assembly) (x : Declared) : Option Bytes :=
  match x.target? with
  | some target => a.cache.find? target
  | none => x.text?.bind fun raw => a.flattened? s raw (Declaration.imports x.declaration)

/-- The flattened code of a declaration that has been taken in. -/
def resolvedCode? (s : Setting) (a : Assembly) (x : Declared) : Option Bytes :=
  match x.kind with
  | .fragment => a.cache.find? x.name
  | .shaderModule => a.pendingCode? s x

/-- A text that expands to nothing has no flattened code. -/
theorem flattened?_nil {raw : String} {imports : List String} {own : Expansion}
    (h : s.expand raw = .ok own) (hempty : own.text = []) : a.flattened? s raw imports = none := by
  simp [flattened?, h, hempty]

/-- A text that expands to something has its own code behind that of its imports. -/
theorem flattened?_eq {raw : String} {imports : List String} {own : Expansion}
    (h : s.expand raw = .ok own) (hne : own.text ≠ []) :
    a.flattened? s raw imports =
      some (a.table.flatten a.container.blobs (a.table.importIds imports) own.text) := by
  simp [flattened?, h, hne]

/-- A shader module without code has none pending. -/
theorem pendingCode?_missing (hp : Declaration.codeProperty? d = none) :
    a.pendingCode? s ⟨.shaderModule, name, d⟩ = none := by
  simp [pendingCode?, Declared.target?, Declared.text?, Declaration.inlineCode?_of_missing hp]

/-- A shader module that uses a fragment has the code pending that is kept for the fragment, if any
is. -/
theorem pendingCode?_reference {p : Property} {target : String}
    (hp : Declaration.codeProperty? d = some p) (href : p.reference? = some target) :
    a.pendingCode? s ⟨.shaderModule, name, d⟩ = a.cache.find? target := by
  simp [pendingCode?, Declared.target?, Declaration.target?_of_reference hp href]

/-- A shader module with a text of its own has the flattened code of that text pending. -/
theorem pendingCode?_inline {p : Property} (hp : Declaration.codeProperty? d = some p)
    (href : p.reference? = none) : a.pendingCode? s ⟨.shaderModule, name, d⟩ =
      a.flattened? s (p.text?.getD "") (Declaration.imports d) := by
  simp [pendingCode?, Declared.target?, Declared.text?, Declaration.inlineCode?_of_inline hp href]

/-- What holds of all code that is kept still holds when code of which it holds is kept too. -/
theorem forall_cached_remember {P : Bytes → Prop}
    (h : ∀ name code, a.cache.find? name = some code → P code) (hcode : P code) :
    ∀ other code', (a.remember name code).cache.find? other = some code' → P code' := by
  intro other code' hother
  rw [show (a.remember name code).cache = a.cache.insert name code from rfl,
    Dict.find?_insert] at hother
  split at hother
  · cases hother
    exact hcode
  · exact h other code' hother

/-! ### No id wraps around -/

/-- The tables fit together, however many declarations there are: every module has a blob with code,
and there are no more blobs than bytes. -/
structure Intact (a : Assembly) : Prop where
  table : a.table.WellFormed
  stored : a.table.Stored a.container.blobs
  modules_le : a.table.count ≤ a.container.blobs.count
  blobs_le : a.container.blobs.count ≤ a.container.blobs.byteCount
  bytes_le : a.container.blobs.byteCount ≤ BlobStore.limit
  cached : ∀ name code, a.cache.find? name = some code → code ≠ []

/-- A run starts with tables that fit together. -/
theorem intact_empty (es : List Event) : (empty.note es).Intact where
  table := ModuleTable.wellFormed_empty
  stored := (sound_empty es).stored
  modules_le := Nat.le_refl _
  blobs_le := Nat.le_refl _
  bytes_le := Nat.zero_le _
  cached name code h := by cases h

namespace Intact

/-- Neither the modules nor the blobs are too many for 32-bit ids. Each of them has a byte of its
own in the pool, and the pool is bounded. -/
theorem count_lt (h : a.Intact) : a.table.count < 2 ^ 32 ∧ a.container.blobs.count < 2 ^ 32 := by
  have hmodules := h.modules_le
  have hblobs := h.blobs_le
  have hbytes := h.bytes_le
  rw [BlobStore.limit, UInt32.size] at hbytes
  omega

/-- What imports add to a text stays the same while the tables grow. -/
theorem flatten_imports (h : a.Intact) {t : ModuleTable} {blobs : BlobStore}
    (ht : a.table.Extends t) (hs : a.container.blobs.Keeps blobs) (imports : List String)
    (own : Bytes) :
    t.flatten blobs (a.table.importIds imports) own =
      a.table.flatten a.container.blobs (a.table.importIds imports) own :=
  ModuleTable.flatten_of_extends h.table h.stored ht hs
    (fun _ hi => ModuleTable.importIds_lt h.table hi) own

/-- A module with code that is entered keeps the tables fitting together. -/
theorem enter {kind : Kind} {own : Bytes} {deps : List UInt32} {m : Module} {blobs : BlobStore}
    (h : a.Intact) (hne : own ≠ []) (hm : Enters a.table a.container kind name own deps m blobs) :
    (a.enter m blobs).Intact := by
  obtain ⟨hcount, hcount'⟩ := h.count_lt
  have hmodules := h.modules_le
  have hblobs := h.blobs_le
  have hlength := List.length_pos_of_ne_nil hne
  have htable : (a.enter m blobs).table.count = a.table.count + 1 := ModuleTable.count_push _ _
  have hadded := BlobStore.count_of_add? hm.added
  have hbytes := BlobStore.byteCount_of_add? hm.added
  refine ⟨(hm.wellFormed h.table hcount).2, (hm.stored h.stored hcount' hne).2, ?_, ?_, ?_,
    h.cached⟩
  · rw [htable]
    exact hadded ▸ Nat.succ_le_succ hmodules
  · show blobs.count ≤ blobs.byteCount
    omega
  · show blobs.byteCount ≤ BlobStore.limit
    exact hbytes ▸ (BlobStore.add?_eq_some hm.added).1

/-- So does code that is kept for a fragment. -/
theorem remember (h : a.Intact) (hne : code ≠ []) : (a.remember name code).Intact where
  table := h.table
  stored := h.stored
  modules_le := h.modules_le
  blobs_le := h.blobs_le
  bytes_le := h.bytes_le
  cached := forall_cached_remember h.cached hne

/-- So does a handle that is given out for code. -/
theorem issue {module? : Option UInt32} {source : CodeSource} {blobs : BlobStore} (h : a.Intact)
    (hne : code ≠ []) (hsource : s.Issues a.container code module? source blobs)
    (key : Kind × String) : (a.issue key source blobs).Intact := by
  cases hsource with
  | module _ => exact ⟨h.table, h.stored, h.modules_le, h.blobs_le, h.bytes_le, h.cached⟩
  | @blob _ id blobs _ hadded =>
      have hmodules := h.modules_le
      have hblobs := h.blobs_le
      have hlength := List.length_pos_of_ne_nil hne
      have hcount := BlobStore.count_of_add? hadded
      have hbytes := BlobStore.byteCount_of_add? hadded
      refine ⟨h.table, ?_, ?_, ?_, ?_, h.cached⟩
      · intro id m hm
        obtain ⟨own, hown, hblob⟩ := h.stored id m hm
        exact ⟨own, hown, BlobStore.keeps_of_add? hadded _ _ hblob⟩
      · show a.table.count ≤ blobs.count
        omega
      · show blobs.count ≤ blobs.byteCount
        omega
      · show blobs.byteCount ≤ BlobStore.limit
        exact hbytes ▸ (BlobStore.add?_eq_some hadded).1

/-- The notes have no part in it. -/
theorem setLog (h : a.Intact) (log : Array Event) : { a with log }.Intact :=
  ⟨h.table, h.stored, h.modules_le, h.blobs_le, h.bytes_le, h.cached⟩

/-- A fragment keeps the tables fitting together, whichever way it is taken in. -/
theorem fragmentStep (h : a.Intact) (hstep : FragmentStep s a name d b) : b.Intact := by
  cases hstep with
  | empty _ _ log => exact h.setLog log
  | stored _ hne hm hcode _ hsource log =>
      have hcode' := hcode ▸ flatten_ne_nil _ _ _ hne
      exact (((h.enter hne hm).remember hcode').issue hcode' hsource _).setLog log

/-- So does a shader module. -/
theorem shaderModuleStep (h : a.Intact) (hstep : ShaderModuleStep s a name d b) : b.Intact := by
  cases hstep with
  | missing _ log => exact h.setLog log
  | dangling _ _ _ log => exact h.setLog log
  | empty _ _ _ _ log => exact h.setLog log
  | reference _ _ _ hne _ hsource log => exact (h.issue hne hsource _).setLog log
  | legacy _ _ _ _ hne hcode _ hsource log =>
      exact (h.issue (hcode ▸ flatten_ne_nil _ _ _ hne) hsource _).setLog log
  | runtime _ _ _ _ hne hcode hm _ hsource log =>
      exact ((h.enter hne hm).issue (hcode ▸ flatten_ne_nil _ _ _ hne) hsource _).setLog log

/-- The step lemma: whatever declaration is taken in, the tables fit together afterwards. -/
theorem take (h : a.Intact) (htake : a.take s x = .ok b) : b.Intact := by
  obtain ⟨kind, name, d⟩ := x
  cases kind with
  | fragment => exact h.fragmentStep (addFragment_step htake)
  | shaderModule => exact h.shaderModuleStep (addShaderModule_step htake)

end Intact

/-! ### What stays as it is -/

/-- Taking in a declaration changes the tables under its own key only. -/
theorem take_change (h : a.take s x = .ok b) : Change s a x.key b := by
  obtain ⟨kind, name, d⟩ := x
  cases kind with
  | fragment => exact (addFragment_step h).change
  | shaderModule => exact (addShaderModule_step h).change

/-- The code kept for a fragment changes only when that fragment is taken in. -/
theorem find?_take (h : a.take s x = .ok b) (hne : x.key ≠ (.fragment, name)) :
    b.cache.find? name = a.cache.find? name := by
  obtain ⟨kind, other, d⟩ := x
  cases kind with
  | shaderModule => rw [(addShaderModule_step h).cache_eq]
  | fragment =>
      have hother : name ≠ other := fun heq => hne (heq ▸ rfl)
      cases addFragment_step h with
      | empty _ _ log => rfl
      | stored _ _ _ _ _ _ log =>
          refine (Dict.find?_insert _ _ _ _).trans ?_
          rw [if_neg hother]
          rfl

/-- Shader modules do not change what code is pending: imports mean fragments only, and their code
stays. -/
theorem Intact.pendingCode?_take (h : a.Intact) (htake : a.take s y = .ok b)
    (hy : y.kind = .shaderModule) (x : Declared) : b.pendingCode? s x = a.pendingCode? s x := by
  obtain ⟨kind, name, d⟩ := y
  obtain rfl : kind = .shaderModule := hy
  have hchange := take_change htake
  obtain ⟨htable, hblobs⟩ := hchange.grows
  have hcache : b.cache = a.cache := (addShaderModule_step htake).cache_eq
  have hids : b.table.fragmentId? = a.table.fragmentId? := by
    funext fragment
    exact hchange.lookup_eq (by rintro ⟨⟩)
  have hflat : ∀ raw imports, b.flattened? s raw imports = a.flattened? s raw imports := by
    intro raw imports
    have himports : b.table.importIds imports = a.table.importIds imports := by
      rw [ModuleTable.importIds, hids]
      rfl
    unfold flattened?
    rw [himports]
    cases s.expand raw with
    | error e => rfl
    | ok own =>
        simp only [h.flatten_imports htable hblobs]
  unfold pendingCode?
  rw [hcache]
  simp only [hflat]

/-- A declaration keeps its flattened code when a later one is taken in. -/
theorem Intact.resolvedCode?_take (h : a.Intact) (htake : a.take s y = .ok b) (hxy : x.Before y) :
    b.resolvedCode? s x = a.resolvedCode? s x := by
  obtain ⟨hne, hkind⟩ := hxy
  unfold resolvedCode?
  cases hx : x.kind with
  | fragment =>
      apply find?_take htake
      rw [← hx]
      exact hne.symm
  | shaderModule => exact h.pendingCode?_take htake (hkind hx) x

/-! ### What a declaration gets -/

/-- The declaration has not been taken in. -/
def Fresh (a : Assembly) (x : Declared) : Prop :=
  a.handles.handle? x.kind x.name = none ∧ (x.kind = .fragment → a.cache.find? x.name = none)

/-- At the start of a run, every declaration is still to come. -/
theorem fresh_empty (es : List Event) (x : Declared) : (empty.note es).Fresh x :=
  ⟨rfl, fun _ => rfl⟩

/-- A declaration that is still to come is still to come after another one. -/
theorem Fresh.take (h : a.Fresh x) (htake : a.take s y = .ok b) (hne : y.key ≠ x.key) :
    b.Fresh x := by
  refine ⟨((take_change htake).handle?_of_ne hne.symm).trans h.1, ?_⟩
  intro hx
  rw [find?_take htake (by rw [← hx]; exact hne)]
  exact h.2 hx

/-- What comes of taking in a declaration: it has the code that was pending, it has a handle exactly
if there is such code, and the text of its own code could be read. -/
structure Taken (s : Setting) (a : Assembly) (x : Declared) (b : Assembly) : Prop where
  resolved : b.resolvedCode? s x = a.pendingCode? s x
  handle_iff : (b.handles.handle? x.kind x.name).isSome ↔ (a.pendingCode? s x).isSome
  readable : ∀ raw, x.text? = some raw → s.failure? raw = none

/-- What is taken in without a change has no code pending. -/
theorem Fresh.taken_skip (h : a.Fresh x) (hresolved : b.resolvedCode? s x = a.pendingCode? s x)
    (hsame : b.handles = a.handles) (hpending : a.pendingCode? s x = none)
    (hread : ∀ raw, x.text? = some raw → s.failure? raw = none) : Taken s a x b := by
  refine ⟨hresolved, ?_, hread⟩
  rw [hsame, hpending, h.1]
  exact Iff.rfl

/-- What is given a handle has code pending. -/
theorem taken_issue {handles : Dict (Kind × String) UInt32} {handle : UInt32}
    (hresolved : b.resolvedCode? s x = a.pendingCode? s x)
    (hissue : b.handles.handles = handles.insert x.key handle)
    (hpending : a.pendingCode? s x = some code)
    (hread : ∀ raw, x.text? = some raw → s.failure? raw = none) : Taken s a x b := by
  refine ⟨hresolved, ?_, hread⟩
  rw [HandleTable.handle?, hissue, Dict.find?_insert, if_pos (by rfl), hpending]
  exact Iff.rfl

/-- If a declaration's text expands, it could be read. -/
theorem readable_of_expand {raw : String} {own : Expansion} (htext : x.text? = some raw)
    (hown : s.expand raw = .ok own) : ∀ raw', x.text? = some raw' → s.failure? raw' = none := by
  intro raw' hraw'
  obtain rfl : raw = raw' := Option.some.inj (htext.symm.trans hraw')
  exact Setting.failure?_eq_none_iff.mpr ⟨own, hown⟩

/-- A declaration without a text of its own has nothing to be read. -/
theorem readable_of_none (htext : x.text? = none) :
    ∀ raw, x.text? = some raw → s.failure? raw = none := by
  intro raw hraw
  rw [htext] at hraw
  cases hraw

/-- What comes of taking in a fragment. -/
theorem Intact.taken_fragment (h : a.Intact) (hfresh : a.Fresh ⟨.fragment, name, d⟩)
    (hstep : FragmentStep s a name d b) : Taken s a ⟨.fragment, name, d⟩ b := by
  cases hstep with
  | empty hown hempty log =>
      have hpending : a.pendingCode? s ⟨.fragment, name, d⟩ = none := flattened?_nil hown hempty
      exact hfresh.taken_skip ((hfresh.2 rfl).trans hpending.symm) rfl hpending
        (readable_of_expand rfl hown)
  | @stored own m blobs blobs' code source hown hne hm hcode _ _ log =>
      have hflat :
          code = a.table.flatten a.container.blobs
            (a.table.importIds (Declaration.imports d)) own.text := by
        rw [hcode, hm.deps_eq]
        exact h.flatten_imports (ModuleTable.extends_push _ _)
          (BlobStore.keeps_of_add? hm.added) _ _
      have hpending : a.pendingCode? s ⟨.fragment, name, d⟩ = some code :=
        (flattened?_eq hown hne).trans (congrArg some hflat.symm)
      refine taken_issue ?_ rfl hpending (readable_of_expand rfl hown)
      rw [hpending]
      refine (Dict.find?_insert _ _ _ _).trans ?_
      rw [if_pos rfl]

/-- What comes of taking in a shader module. -/
theorem Intact.taken_shaderModule (h : a.Intact) (hfresh : a.Fresh ⟨.shaderModule, name, d⟩)
    (htake : a.take s ⟨.shaderModule, name, d⟩ = .ok b) : Taken s a ⟨.shaderModule, name, d⟩ b := by
  have hresolved : b.resolvedCode? s ⟨.shaderModule, name, d⟩ =
      a.pendingCode? s ⟨.shaderModule, name, d⟩ :=
    h.pendingCode?_take htake rfl _
  cases addShaderModule_step htake with
  | missing hp log =>
      exact hfresh.taken_skip hresolved rfl (pendingCode?_missing hp)
        (readable_of_none (Declaration.inlineCode?_of_missing hp).2)
  | dangling hp href hnone log =>
      refine hfresh.taken_skip hresolved rfl ?_
        (readable_of_none (Declaration.target?_of_reference hp href).2)
      rw [pendingCode?_reference hp href, Option.eq_none_iff_forall_ne_some]
      intro code hcode
      rw [hcode] at hnone
      exact h.cached _ _ hcode hnone
  | empty hp href hown hempty log =>
      refine hfresh.taken_skip hresolved rfl ?_
        (readable_of_expand (Declaration.inlineCode?_of_inline hp href).2 hown)
      rw [pendingCode?_inline hp href, flattened?_nil hown hempty]
  | reference hp href hcode _ _ _ log =>
      exact taken_issue hresolved rfl ((pendingCode?_reference hp href).trans hcode)
        (readable_of_none (Declaration.target?_of_reference hp href).2)
  | legacy _ hp href hown hne _ _ _ log =>
      exact taken_issue hresolved rfl ((pendingCode?_inline hp href).trans (flattened?_eq hown hne))
        (readable_of_expand (Declaration.inlineCode?_of_inline hp href).2 hown)
  | runtime _ hp href hown hne _ _ _ _ log =>
      exact taken_issue hresolved rfl ((pendingCode?_inline hp href).trans (flattened?_eq hown hne))
        (readable_of_expand (Declaration.inlineCode?_of_inline hp href).2 hown)

/-- A declaration that is taken in has the code that was pending, and a handle exactly if there is
such code. -/
theorem Intact.taken (h : a.Intact) (hfresh : a.Fresh x) (htake : a.take s x = .ok b) :
    Taken s a x b := by
  obtain ⟨kind, name, d⟩ := x
  cases kind with
  | fragment => exact h.taken_fragment hfresh (addFragment_step htake)
  | shaderModule => exact h.taken_shaderModule hfresh htake

/-! ### Runs -/

/-- The declarations in `xs` can be taken in one after another: they are in order, and none has been
taken in. -/
structure Ready (a : Assembly) (xs : List Declared) : Prop where
  intact : a.Intact
  ordered : xs.Pairwise Declared.Before
  fresh : ∀ x ∈ xs, a.Fresh x

variable {xs ys : List Declared}

namespace Ready

/-- Once the first declaration is taken in, the others can still be taken in one after another. -/
theorem next (h : a.Ready (x :: xs)) (htake : a.take s x = .ok b) : b.Ready xs := by
  obtain ⟨hbefore, hordered⟩ := List.pairwise_cons.mp h.ordered
  refine ⟨h.intact.take htake, hordered, ?_⟩
  intro y hy
  exact (h.fresh y (List.mem_cons_of_mem _ hy)).take htake (hbefore y hy).1

/-- The same for any number of declarations, by induction over those that are taken in. -/
theorem run (h : a.Ready (xs ++ ys)) (hrun : xs.foldlM (Assembly.take s) a = .ok b) :
    b.Ready ys := by
  induction xs generalizing a with
  | nil =>
      cases hrun
      exact h
  | cons x xs ih =>
      obtain ⟨a', htake, hrun⟩ := foldlM_cons_eq_ok.mp hrun
      exact ih (h.next htake) hrun

/-- If a row of declarations can be taken in, so can each beginning of it. -/
theorem of_append (h : a.Ready (xs ++ ys)) : a.Ready xs :=
  ⟨h.intact, (List.pairwise_append.mp h.ordered).1,
    fun x hx => h.fresh x (List.mem_append_left _ hx)⟩

/-- Of declarations that can be taken in one after another, the first gets what is due to it. -/
theorem taken (h : a.Ready (x :: xs)) (htake : a.take s x = .ok b) : Taken s a x b :=
  h.intact.taken (h.fresh x List.mem_cons_self) htake

end Ready

/-- A declaration keeps its code and its handle while later ones are taken in. -/
theorem Intact.kept_run (h : a.Intact) (hxs : ∀ y ∈ xs, x.Before y)
    (hrun : xs.foldlM (Assembly.take s) a = .ok c) :
    c.resolvedCode? s x = a.resolvedCode? s x ∧
      c.handles.handle? x.kind x.name = a.handles.handle? x.kind x.name := by
  induction xs generalizing a with
  | nil =>
      cases hrun
      exact ⟨rfl, rfl⟩
  | cons y xs ih =>
      obtain ⟨b, htake, hrun⟩ := foldlM_cons_eq_ok.mp hrun
      -- `y` has another key, and no fragment comes behind a shader module
      have hy := hxs y List.mem_cons_self
      obtain ⟨hcode, hhandle⟩ :=
        ih (h.take htake) (fun z hz => hxs z (List.mem_cons_of_mem _ hz)) hrun
      exact ⟨hcode.trans (h.resolvedCode?_take htake hy),
        hhandle.trans ((take_change htake).handle?_of_ne hy.1)⟩

/-- What taking in a declaration gave is what the finished run has. -/
theorem Ready.taken_run (h : a.Ready (x :: xs)) (htake : a.take s x = .ok b)
    (hrun : xs.foldlM (Assembly.take s) b = .ok c) : Taken s a x c := by
  have htaken := h.taken htake
  obtain ⟨hcode, hhandle⟩ :=
    (h.intact.take htake).kept_run (List.pairwise_cons.mp h.ordered).1 hrun
  refine ⟨hcode.trans htaken.resolved, ?_, htaken.readable⟩
  rw [hhandle]
  exact htaken.handle_iff

end Assembly

namespace Program

/-- The declarations of a program in the order in which they are taken in. -/
def agenda (p : Program) : List Declared :=
  p.scheduledFragments.map (fun e => ⟨.fragment, e.1, e.2⟩) ++
    p.shaderModules.entries.map fun e => ⟨.shaderModule, e.1, e.2⟩

/-- The keys on the agenda are the declarations of the program, in order. -/
theorem map_key_agenda (p : Program) : p.agenda.map Declared.key = p.declarations := by
  rw [agenda, List.map_append, List.map_map, List.map_map]
  rfl

/-- The agenda has no declaration twice, and fragments come first. -/
theorem pairwise_agenda (p : Program) : p.agenda.Pairwise Declared.Before := by
  have hkeys := p.nodup_declarations
  rw [← map_key_agenda, List.Nodup, List.pairwise_map] at hkeys
  refine hkeys.and ?_
  rw [agenda, List.pairwise_append]
  refine ⟨?_, ?_, ?_⟩
  · exact List.pairwise_map.mpr (List.pairwise_of_forall fun e e' => by simp)
  · exact List.pairwise_map.mpr (List.pairwise_of_forall fun e e' => by simp)
  · intro x hx y hy
    obtain ⟨e, -, rfl⟩ := List.mem_map.mp hy
    exact fun _ => rfl

/-- The declarations of a program can be taken in one after another from the start. -/
theorem ready_agenda (p : Program) (es : List Event) : (Assembly.empty.note es).Ready p.agenda :=
  ⟨Assembly.intact_empty es, p.pairwise_agenda, fun x _ => Assembly.fresh_empty es x⟩

/-- An assembly with its end. -/
def completed (p : Program) (mode : Mode) (a : Assembly) : Assembly :=
  (a.finish mode).note [p.assembledEvent (a.finish mode)]

/-- Assembling a program is a run over its agenda, and then the end. -/
theorem assembleWith_eq (check : Wgsl.Check) (files : Files) (options : Options) (p : Program) :
    p.assembleWith check files options =
      (p.agenda.foldlM (Assembly.take (p.setting check files options))
        (Assembly.empty.note p.schedule.events)).map
        (p.completed options.mode) := by
  rw [agenda, List.foldlM_append]
  simp only [List.foldlM_map]
  unfold assembleWith
  simp only [bind_pure_comp]
  exact (map_bind _ _ _).symm

variable {p : Program} {check : Wgsl.Check} {files : Files} {options : Options}

/-- An assembly succeeds exactly if the run over the agenda does; it gives what the run leaves,
completed. -/
theorem assembleWith_eq_ok {c : Assembly} :
    p.assembleWith check files options = .ok c ↔
    ∃ a, p.agenda.foldlM (Assembly.take (p.setting check files options))
      (Assembly.empty.note p.schedule.events) =
      .ok a ∧ p.completed options.mode a = c := by
  rw [assembleWith_eq]
  cases p.agenda.foldlM (Assembly.take (p.setting check files options))
    (Assembly.empty.note p.schedule.events) <;>
    simp [Except.map]

/-- An assembly fails exactly if the run over the agenda does, and with the same failure. -/
theorem assembleWith_eq_error {f : Failure} :
    p.assembleWith check files options = .error f ↔
    p.agenda.foldlM (Assembly.take (p.setting check files options))
      (Assembly.empty.note p.schedule.events) =
      .error f := by
  rw [assembleWith_eq]
  cases p.agenda.foldlM (Assembly.take (p.setting check files options))
    (Assembly.empty.note p.schedule.events) <;>
    simp [Except.map]

end Program

end ShaderPack
