import ShaderPack.Proofs.BlobHistory
import ShaderPack.Proofs.RecursiveSearch
import ShaderPack.Proofs.RegisterHistory

/-!
# Growth does not change what was resolved

Some code is flattened while modules and blobs are still to come, and some when all are there. Both
see the same, since what comes later is out of reach of what was there: a module depends on earlier
ones only, and a blob stays where it is.

* `ModuleTable.Registered.walk_of_extends`: a walk takes the same steps in a table with more
  modules. It finds the same, and it is cut off at the same place.
* `Library`: modules and blobs that grow together, by requests in any order. `Library.grows_run`
  says what requests leave as it is.
* `Library.resolution_stable`: the statement about closures and flattened code.
-/

namespace ShaderPack

namespace ModuleTable

variable {t t' : ModuleTable} {s s' : BlobStore} {roots : List UInt32}

/-- A walk over modules of `t` does not see the other modules of a larger table. -/
theorem Registered.walk_of_extends (ht : t.Registered) (hext : t.Extends t') (fuel : Nat)
    (stack : List Visit) (path found : List UInt32)
    (hstack : ∀ id, .enter id ∈ stack → id.toNat < t.count) :
    t'.walk fuel stack path found = t.walk fuel stack path found := by
  fun_induction walk t fuel stack path found with
  | case1 => rw [walk]
  | case2 => rw [walk]
  | case3 fuel id stack path found h ih =>
      rw [walk, if_pos h]
      exact ih fun d hd => hstack d (List.mem_cons_of_mem _ hd)
  | case4 fuel id stack path found h hnone ih =>
      -- This is where the walks could part, but only modules of `t` are entered.
      obtain ⟨m, hm⟩ := exists_get?_of_lt (hstack id List.mem_cons_self)
      rw [hnone] at hm
      cases hm
  | case5 fuel id stack path found h m hm ih =>
      rw [walk, if_neg h, hext.get? hm]
      refine ih fun d hd => ?_
      obtain hd | hd := List.mem_append.mp hd
      · have hdep : d ∈ m.deps := by simpa using hd
        exact Nat.lt_trans (ht.dep_lt hm hdep) (lt_count_of_get? hm)
      · have hmem : .enter d ∈ stack := by simpa using hd
        exact hstack d (List.mem_cons_of_mem _ hmem)
  | case6 fuel id stack path found ih =>
      rw [walk]
      exact ih fun d hd => hstack d (List.mem_cons_of_mem _ hd)

/-- The closure of roots that are registered does not change while modules come in. -/
theorem Registered.closure_of_extends (ht : t.Registered) (hext : t.Extends t')
    (hroots : ∀ root ∈ roots, root.toNat < t.count) : t'.closure roots = t.closure roots := by
  refine ht.walk_of_extends hext stepLimit (roots.map .enter) [] [] fun id hid => hroots id ?_
  simpa using hid

/-- A module adds the same code while its blob is kept. The blob may be empty. -/
theorem contribution_of_extends {id : UInt32} {m : Module} (hext : t.Extends t')
    (hkeeps : s.Keeps s') (hm : t.get? id = some m) (hstored : (s.blob? m.blob).isSome) :
    t'.contribution s' id = t.contribution s id := by
  obtain ⟨code, hcode⟩ := Option.isSome_iff_exists.mp hstored
  rw [contribution, contribution, hm, hext.get? hm, Option.bind_some, Option.bind_some, hcode,
    hkeeps _ _ hcode]

/-- If the closure is the same and the blobs are kept, the flattened code is the same. -/
theorem Registered.flatten_of_closure (ht : t.Registered) (hext : t.Extends t')
    (hkeeps : s.Keeps s') (hclosure : t'.closure roots = t.closure roots)
    (hstored : ∀ m ∈ t.modules, (s.blob? m.blob).isSome) (own : Bytes) :
    t'.flatten s' roots own = t.flatten s roots own := by
  have hcode : ∀ id ∈ (t.closure roots).order, t'.contribution s' id = t.contribution s id := by
    intro id hid
    obtain ⟨ids, hlists, horder, -⟩ := ht.closure_spec roots
    obtain ⟨-, hsome⟩ := (hlists.mem_iff id).mp (horder.subset hid)
    obtain ⟨m, hm⟩ := Option.isSome_iff_exists.mp hsome
    exact contribution_of_extends hext hkeeps hm (hstored m (mem_of_get? hm))
  rw [flatten, flatten, hclosure, List.flatMap_congr hcode]

end ModuleTable

/-- A blob that is stored or refused leaves the others under their ids. -/
theorem BlobStore.keeps_submit (s : BlobStore) (blob : Bytes) : s.Keeps (s.submit blob).2 := by
  rw [submit_eq]
  cases hadd : s.add? blob with
  | none => exact Keeps.refl s
  | some added => exact keeps_of_add? hadd

/-- Modules, and the blobs with their code. -/
structure Library where
  /-- The modules. -/
  modules : ModuleTable
  /-- The blobs. -/
  blobs : BlobStore

namespace Library

/-- What a caller can ask of a library. -/
inductive Request where
  /-- Register a module. -/
  | register (r : Registration)
  /-- Store a blob. -/
  | store (blob : Bytes)

/-- The library without modules and blobs. -/
def empty : Library := ⟨.empty, .empty⟩

/-- The library after a request, whether it was granted or not. -/
def step (l : Library) : Request → Library
  | .register r => { l with modules := l.modules.after r }
  | .store blob => { l with blobs := (l.blobs.submit blob).2 }

/-- The library after one request after another. -/
def run (l : Library) (requests : List Request) : Library := requests.foldl step l

/-- `l'` has everything that is in `l`, under the same ids. -/
structure Grows (l l' : Library) : Prop where
  modules : l.modules.Extends l'.modules
  blobs : l.blobs.Keeps l'.blobs

variable {l l' l'' : Library}

theorem Grows.refl (l : Library) : l.Grows l := ⟨.refl _, .refl _⟩

/-- Growing goes on from step to step. -/
theorem Grows.trans (h : l.Grows l') (h' : l'.Grows l'') : l.Grows l'' :=
  ⟨h.modules.trans h'.modules, h.blobs.trans h'.blobs⟩

/-- **One request** leaves everything in its place. -/
theorem grows_step (l : Library) (request : Request) : l.Grows (l.step request) := by
  cases request with
  | register r => exact ⟨l.modules.extends_after r, .refl _⟩
  | store blob => exact ⟨.refl _, l.blobs.keeps_submit blob⟩

/-- Any requests leave everything in its place. -/
theorem grows_run (l : Library) (requests : List Request) : l.Grows (l.run requests) :=
  List.foldlRecOn (motive := l.Grows) requests step (.refl l) fun l' h request _ =>
    h.trans (l'.grows_step request)

/-- A request leaves a table that registering can give, whether it is granted or not. -/
theorem registered_step (h : l.modules.Registered) (request : Request) :
    (l.step request).modules.Registered := by
  cases request with
  | register r => exact h.after r
  | store blob => exact h

/-- So does a whole history of requests. -/
theorem registered_run (requests : List Request) : (empty.run requests).modules.Registered :=
  List.foldlRecOn (motive := fun l => l.modules.Registered) requests step .empty
    fun _ h request _ => registered_step h request

/-- **Growth does not change what was resolved.** Take a library after any requests, such that the
blobs of its modules are stored, and any of its modules as roots. After any further requests,
granted or refused, the roots have the same closure, cut off or not, and flattening them in front of
any code gives the same text. -/
theorem resolution_stable (requests later : List Request) (roots : List UInt32) (own : Bytes) :
    let l := empty.run requests
    let l' := l.run later
    (∀ root ∈ roots, root.toNat < l.modules.count) →
    (∀ m ∈ l.modules.modules, (l.blobs.blob? m.blob).isSome) →
      l'.modules.closure roots = l.modules.closure roots ∧
      l'.modules.flatten l'.blobs roots own = l.modules.flatten l.blobs roots own := by
  intro l l' hroots hstored
  have hregistered : l.modules.Registered := registered_run requests
  have hgrows : l.Grows l' := l.grows_run later
  have hclosure := hregistered.closure_of_extends hgrows.modules hroots
  exact ⟨hclosure, hregistered.flatten_of_closure hgrows.modules hgrows.blobs hclosure hstored own⟩

/-- Two modules that share a dependency, one of them without code, and a module that depends on
both. -/
def diamondRequests : List Request :=
  [.store [97], .store [], .store [99],
    .register ⟨.fragment, "base", 0, 0, 0, []⟩, .register ⟨.fragment, "left", 1, 1, 1, [0]⟩,
    .register ⟨.fragment, "right", 2, 2, 1, [0]⟩, .register ⟨.fragment, "top", 3, 0, 0, [2, 1]⟩]

/-- A blob, a module whose name is taken, one with an unknown dependency, and two that are
granted. -/
def growthRequests : List Request :=
  [.store [100], .register ⟨.fragment, "base", 0, 3, 2, []⟩,
    .register ⟨.fragment, "lost", 4, 3, 2, [9]⟩,
    .register ⟨.fragment, "next", 5, 3, 2, [3, 0]⟩, .register ⟨.fragment, "last", 6, 1, 1, [4]⟩]

/-- A diamond of modules, one of them without code, resolves to the same code after granted and
refused requests. -/
theorem diamond_resolution :
    let l := empty.run diamondRequests
    let l' := l.run growthRequests
    l.modules.count = 4 ∧ l'.modules.count = 6 ∧
      (∀ m ∈ l.modules.modules, (l.blobs.blob? m.blob).isSome) ∧
      l'.modules.closure [3, 1] = ⟨[0, 2, 1, 3], false⟩ ∧
      l'.modules.flatten l'.blobs [3, 1] [111] = [97, 10, 99, 10, 97, 10, 111] := by
  intro l l'
  have hcounts : l.modules.count = 4 ∧ l'.modules.count = 6 := by decide +kernel
  have hroots : ∀ root ∈ ([3, 1] : List UInt32), root.toNat < l.modules.count := by simp [hcounts.1]
  have hstored : ∀ m ∈ l.modules.modules, (l.blobs.blob? m.blob).isSome := by decide +kernel
  have hbefore : l.modules.closure [3, 1] = ⟨[0, 2, 1, 3], false⟩ ∧
      l.modules.flatten l.blobs [3, 1] [111] = [97, 10, 99, 10, 97, 10, 111] := by decide +kernel
  obtain ⟨hclosure, hflatten⟩ :=
    resolution_stable diamondRequests growthRequests [3, 1] [111] hroots hstored
  exact ⟨hcounts.1, hcounts.2, hstored, hclosure.trans hbefore.1, hflatten.trans hbefore.2⟩

end Library

end ShaderPack
