import ShaderPack.Proofs.InstructionStream
import ShaderPack.Proofs.Runs

/-!
# Handles are dense

A handle is taken only when its instruction is written, so the handles of a finished assembly run
from zero without a gap, and the stream creates them in order.

`Assembly.Dense` is the invariant: handles and instructions are counted by the same counter. While
the fragments are taken in, that counter is the count of modules as well (`FragmentPhase`), which is
why a fragment's handle is its module's id. Shader modules come later and leave both alone
(`Change.handle_eq`).
-/

namespace ShaderPack

/-- The instructions that create shaders from these sources, with handles counted from zero. -/
def Instruction.creates (sources : List CodeSource) : List Instruction :=
  sources.mapIdx fun i source => .create (UInt32.ofNat i) source

/-- One more source takes the handle behind the last. -/
theorem Instruction.creates_concat (sources : List CodeSource) (source : CodeSource) :
    creates (sources ++ [source]) =
      creates sources ++ [.create (UInt32.ofNat sources.length) source] := by
  simp [creates, List.mapIdx_append]

namespace Assembly

variable {s : Setting} {a b : Assembly} {key : Kind × String} {done : List (Kind × String)}

/-- The handles given out are counted by `next`, and so are the instructions. -/
structure Dense (a : Assembly) : Prop where
  values : a.handles.handles.values.map UInt32.toNat = List.range a.handles.next.toNat
  instructions : ∃ sources : List CodeSource, sources.length = a.handles.next.toNat ∧
    a.container.instructions.toList = Instruction.creates sources

/-- At the start no handle is given out. -/
theorem dense_empty (es : List Event) : (empty.note es).Dense :=
  ⟨rfl, [], rfl, rfl⟩

/-- The next handle is the number of names that have one. -/
theorem Dense.next_eq (h : a.Dense) : a.handles.next.toNat = a.handles.handles.size := by
  have := congrArg List.length h.values
  simpa [Dict.values, Dict.size] using this.symm

/-- Giving out a handle to a new declaration keeps handles and instructions in step. -/
theorem Dense.issue (h : a.Dense) (ha : a.Sound done) (hkey : key ∉ done)
    (hlen : done.length < 2 ^ 31) (source : CodeSource) (blobs : BlobStore) :
    (a.issue key source blobs).Dense ∧
      (a.issue key source blobs).handles.next.toNat = a.handles.next.toNat + 1 := by
  have hnext : (a.handles.next + 1).toNat = a.handles.next.toNat + 1 := by
    have hle := ha.size_le
    rw [← h.next_eq] at hle
    rw [UInt32.toNat_add, show (1 : UInt32).toNat = 1 from rfl, Nat.mod_eq_of_lt (by omega)]
  obtain ⟨sources, hlength, hsources⟩ := h.instructions
  refine ⟨⟨?_, sources ++ [source], ?_, ?_⟩, hnext⟩
  · have hentries := Dict.entries_insert_of_not_mem a.handles.handles a.handles.next
      fun hmem => hkey (ha.handles hmem)
    have hvalues := h.values
    simp only [Dict.values] at hvalues
    simp only [Assembly.issue, Dict.values, hentries, List.map_append, hvalues, hnext,
      List.range_succ]
    rfl
  · rw [List.length_append, hlength]
    exact hnext.symm
  · simp only [Assembly.issue, Container.push, Array.toList_push, hsources]
    rw [Instruction.creates_concat, hlength, UInt32.ofNat_toNat]

/-- A declaration keeps the handles dense: it takes the next one or none. -/
theorem Change.dense (h : Change s a key b) (ha : a.Sound done) (hkey : key ∉ done)
    (hlen : done.length < 2 ^ 31) (hdense : a.Dense) : b.Dense := by
  cases h with
  | skipped log => exact ⟨hdense.values, hdense.instructions⟩
  | @issued code module? source blobs hsource log =>
      obtain ⟨h, -⟩ := hdense.issue ha hkey hlen source blobs
      exact ⟨h.values, h.instructions⟩
  | @entered own code deps m source blobs blobs' hne hm hsource cache log =>
      -- adding the module touches neither the handles nor the instructions
      obtain ⟨h, -⟩ := hdense.issue ha hkey hlen source blobs'
      exact ⟨h.values, h.instructions⟩

/-- Every handle given out is below the next one. -/
theorem Dense.handle_lt (h : a.Dense) {kind : Kind} {name : String} {handle : UInt32}
    (hhandle : a.handles.handle? kind name = some handle) :
    handle.toNat < a.handles.next.toNat := by
  have hmem := (Dict.find?_eq_some_iff _ _ _).mp hhandle
  have hvalue : handle.toNat ∈ a.handles.handles.values.map UInt32.toNat :=
    List.mem_map.mpr ⟨handle, List.mem_map.mpr ⟨_, hmem, rfl⟩, rfl⟩
  rwa [h.values, List.mem_range] at hvalue

/-- Every handle that was given out belongs to exactly one declaration. -/
theorem Dense.existsUnique_key (h : a.Dense) {i : Nat} (hi : i < a.handles.next.toNat) :
    ∃! key : Kind × String, a.handles.handle? key.1 key.2 = some (UInt32.ofNat i) := by
  have hnodup : (a.handles.handles.entries.map Prod.snd).Nodup := by
    apply List.Nodup.of_map UInt32.toNat
    exact h.values ▸ List.nodup_range
  obtain ⟨handle, hvalue, hhandle⟩ := List.mem_map.mp (h.values ▸ List.mem_range.mpr hi)
  obtain ⟨⟨key, handle'⟩, hmem, rfl⟩ := List.mem_map.mp hvalue
  have hof : UInt32.ofNat i = handle' := by rw [← hhandle, UInt32.ofNat_toNat]
  refine ⟨key, ?_, fun key' hkey' => ?_⟩
  · rw [hof]
    exact (Dict.find?_eq_some_iff _ _ _).mpr hmem
  · rw [hof] at hkey'
    have hmem' := (Dict.find?_eq_some_iff _ _ _).mp hkey'
    exact congrArg Prod.fst (List.inj_on_of_nodup_map hnodup hmem' hmem rfl)

/-! ### Handles of fragments -/

/-- What holds while fragments are taken in: each has its module's id as its handle. -/
structure FragmentPhase (a : Assembly) : Prop where
  next_eq : a.handles.next.toNat = a.table.count
  handle_eq : ∀ name, a.handles.handle? .fragment name = a.table.fragmentId? name

/-- Giving out a handle changes the handle of that one name. -/
theorem handle?_issue (a : Assembly) (key : Kind × String) (source : CodeSource) (blobs : BlobStore)
    (kind : Kind) (name : String) : (a.issue key source blobs).handles.handle? kind name =
      if (kind, name) = key then some a.handles.next else a.handles.handle? kind name :=
  Dict.find?_insert _ _ _ _

/-- A fragment takes a module and a handle together or neither, so both counts stay equal. -/
theorem FragmentStep.fragmentPhase {name : String} {d : Declaration} (h : FragmentStep s a name d b)
    (ha : a.Sound done) (hkey : (Kind.fragment, name) ∉ done) (hlen : done.length < 2 ^ 31)
    (hdense : a.Dense) (hphase : a.FragmentPhase) : b.FragmentPhase := by
  cases h with
  | empty _ _ log => exact ⟨hphase.next_eq, hphase.handle_eq⟩
  | @stored own m blobs blobs' code source _ _ hm _ _ _ log =>
      obtain ⟨hid, hwf⟩ := ha.enter_table hlen hm
      obtain ⟨-, hnext⟩ := hdense.issue ha hkey hlen source blobs'
      have hsame : m.id = a.handles.next := by
        rw [← UInt32.toNat_inj, hid, hphase.next_eq]
      refine ⟨?_, fun other => ?_⟩
      · refine hnext.trans ?_
        rw [hphase.next_eq]
        exact (ModuleTable.count_push a.table m).symm
      · refine (handle?_issue a (.fragment, name) source blobs' .fragment other).trans ?_
        refine Eq.trans ?_ (ModuleTable.lookup_push hwf).symm
        rw [hm.key_eq]
        by_cases hother : other = name
        · rw [hother, if_pos rfl, if_pos rfl, hsame]
        · have hne : ¬ (Kind.fragment, name) = (Kind.fragment, other) := by
            rintro ⟨⟩
            exact hother rfl
          rw [if_neg (Ne.symm hne), if_neg hne]
          exact hphase.handle_eq other

/-- A step touches no handle but that of its own declaration. -/
theorem Change.handle?_of_ne {key : Kind × String} (h : Change s a key b) {kind : Kind}
    {name : String} (hne : (kind, name) ≠ key) :
    b.handles.handle? kind name = a.handles.handle? kind name := by
  cases h with
  | skipped log => rfl
  | @issued _ _ source blobs _ log =>
      refine (handle?_issue a key source blobs kind name).trans ?_
      rw [if_neg hne]
  | @entered _ _ _ m source blobs blobs' _ _ _ cache log =>
      refine (handle?_issue (a.enter m blobs) key source blobs' kind name).trans ?_
      rw [if_neg hne]
      rfl

/-- Shader modules leave the handles and the modules of fragments alone. -/
theorem Change.handle_eq {name : String} (h : Change s a (.shaderModule, name) b)
    (heq : ∀ name, a.handles.handle? .fragment name = a.table.fragmentId? name)
    (fragment : String) :
    b.handles.handle? .fragment fragment = b.table.fragmentId? fragment := by
  have hne : (Kind.fragment, fragment) ≠ (Kind.shaderModule, name) := by rintro ⟨⟩
  rw [h.handle?_of_ne hne, ModuleTable.fragmentId?, h.lookup_eq hne]
  exact heq fragment

end Assembly

/-! ### Finished assemblies -/

namespace Program

variable {p : Program} {check : Wgsl.Check} {files : Files} {options : Options} {s : Setting}
  {a b c : Assembly}

/-- After the fragments, the handle of each is the id of its module. -/
theorem Run.fragmentPhase (r : p.Run s a b c) (hlen : p.declarationCount < 2 ^ 31) :
    a.Dense ∧ a.FragmentPhase := by
  obtain ⟨hnodup, hlen'⟩ := fragment_keys hlen
  have hstart : (Assembly.empty.note p.schedule.events).Sound [] ∧
      (Assembly.empty.note p.schedule.events).Dense ∧
      (Assembly.empty.note p.schedule.events).FragmentPhase :=
    ⟨Assembly.sound_empty _, Assembly.dense_empty _, rfl, fun _ => rfl⟩
  refine (Assembly.run_induction (P := fun done a => a.Sound done ∧ a.Dense ∧ a.FragmentPhase)
    ?_ hnodup hlen' hstart r.fragments).2
  rintro done a e b - hkey hshort ⟨ha, hdense, hphase⟩ hstep
  have h := Assembly.addFragment_step hstep
  exact ⟨h.change.sound ha hshort, h.change.dense ha hkey hshort hdense,
    h.fragmentPhase ha hkey hshort hdense hphase⟩

/-- At the end of a run the handles are dense, and those of fragments still are the ids of their
modules. -/
theorem Run.dense (r : p.Run s a b c) (hlen : p.declarationCount < 2 ^ 31) :
    b.Dense ∧ ∀ name, b.handles.handle? .fragment name = b.table.fragmentId? name := by
  have hlen' := length_declarations p ▸ hlen
  obtain ⟨hdense, hphase⟩ := r.fragmentPhase hlen
  refine (Assembly.run_induction (P := fun done a => a.Sound done ∧ a.Dense ∧
      ∀ name, a.handles.handle? .fragment name = a.table.fragmentId? name)
    ?_ p.nodup_declarations hlen' ⟨r.sound_fragments hlen, hdense, hphase.handle_eq⟩
    r.shaderModules).2
  rintro done a e b - hkey hshort ⟨ha, hdense, heq⟩ hstep
  have h := (Assembly.addShaderModule_step hstep).change
  exact ⟨h.sound ha hshort, h.dense ha hkey hshort hdense, h.handle_eq heq⟩

/-- **No orphan handles.** The instructions of a finished assembly create the handles `0` to `k - 1`
in order and then end, where `k` is the count of handles given out. The handle table lists these
handles in increasing order, and every one of them belongs to exactly one declaration. A fragment
has a handle if it is a module, and then the handle is the module's id. -/
theorem handles_dense (hlen : p.declarationCount < 2 ^ 31)
    (h : p.assembleWith check files options = .ok c) :
    (∃ sources : List CodeSource, sources.length = c.handles.count.toNat ∧
      Instruction.decodeAll c.container.code = .ok (Instruction.creates sources ++ [.finish])) ∧
    c.handles.handles.values.map UInt32.toNat = List.range c.handles.count.toNat ∧
    (∀ i, i < c.handles.count.toNat →
      ∃! key : Kind × String, c.handles.handle? key.1 key.2 = some (UInt32.ofNat i)) ∧
    (∀ kind name handle, c.handles.handle? kind name = some handle →
      handle.toNat < c.handles.count.toNat) ∧
    ∀ name, c.handles.handle? .fragment name = c.table.fragmentId? name := by
  obtain ⟨a, b, r⟩ := exists_run h
  obtain ⟨hdense, hfragments⟩ := r.dense hlen
  obtain ⟨sources, hlength, hsources⟩ := hdense.instructions
  obtain ⟨log, rfl⟩ := r.finished
  simp only [Assembly.finish_table, Assembly.finish_handles, HandleTable.count]
  refine ⟨⟨sources, hlength, ?_⟩, hdense.values, fun i hi => hdense.existsUnique_key hi,
    fun kind name handle hhandle => hdense.handle_lt hhandle, hfragments⟩
  rw [Container.decodeAll_code, Assembly.finish_instructions, hsources]

/-- Seven declarations of the sample have code, and their handles are the numbers below seven. -/
theorem sample_handles : sample.declarationCount < 2 ^ 31 ∧
    ∃ c, sample.assembleWith noCheck noFiles .default = .ok c ∧ c.handles.count = 7 ∧
      c.handles.handles.values.map UInt32.toNat = List.range 7 ∧
      (∃! key : Kind × String, c.handles.handle? key.1 key.2 = some 6) ∧
      ∀ name, c.handles.handle? .fragment name = c.table.fragmentId? name := by
  have hlen : sample.declarationCount < 2 ^ 31 := by decide
  have hcount : (sample.assembleWith noCheck noFiles .default).toOption.map
      (fun c => c.handles.count) = some 7 := by decide +kernel
  cases h : sample.assembleWith noCheck noFiles .default with
  | error e =>
      rw [h] at hcount
      cases hcount
  | ok c =>
      rw [h] at hcount
      have hseven : c.handles.count = 7 := Option.some.inj hcount
      obtain ⟨-, hvalues, hunique, -, hfragments⟩ := handles_dense hlen h
      rw [hseven] at hvalues hunique
      exact ⟨hlen, c, rfl, hseven, hvalues, hunique 6 (by decide), hfragments⟩

end Program

end ShaderPack
