import ShaderPack.Proofs.Runs

/-!
# Any history of commits

A commit may have no code, or its store may fail, and commits can follow it. The same declaration
may be committed again. A commit changes the counter and the handles one after the other
(`HandleTable.commitSteps`), and what it has done when its store fails stays done. A `Session` makes
one call after another on a table that starts empty, and goes on with whatever table a call leaves.
It logs for every call which handles its store was offered and what the call answered, and it
carries the state that the stores work on, so that a store leaves a trace also if it fails.

* `HandleTable.submit_eq_commit`: a commit in steps and `HandleTable.commit` come to the same, and
  a failing store leaves the table as it was.
* `Session.Moves`: the three things that a call can do (`Session.moves_step`).
* `Session.Sound`: the counter and the handles move together, and they agree with the log
  (`Session.Moves.sound`, `Session.sound_run`).
* `Session.commits_exact`: the statement about all histories.
-/

namespace ShaderPack

variable {σ ε α : Type}

namespace HandleTable

/-- A store that works on a state, as one that has none: the state that it leaves goes with its
answer. -/
def startedAt (store : UInt32 → StateM σ (Except ε α)) (w : σ) (handle : UInt32) :
    Except (ε × σ) (α × σ) :=
  match (store handle).run w with
  | (.error e, left) => .error (e, left)
  | (.ok receipt, left) => .ok (receipt, left)

/-- A commit in steps answers as `commit` does and leaves the table that `commit` gives. Where
`commit` gives none, because the store failed, it leaves the table as it was. -/
theorem submit_eq_commit (t : HandleTable) (w : σ) (kind : Kind) (name : String) (code : Bytes)
    (store : UInt32 → StateM σ (Except ε α)) :
    t.submit w kind name code store =
      match t.commit kind name code (startedAt store w) with
      | .error (e, left) => ((.error e, t), left)
      | .ok (t', .codeEmpty) => ((.ok .codeEmpty, t'), w)
      | .ok (t', .stored handle (receipt, left)) => ((.ok (.stored handle receipt), t'), left) := by
  rw [submit_eq, commit_eq, startedAt]
  cases code.isEmpty with
  | true => rfl
  | false => rcases (store t.next).run w with ⟨_ | _, left⟩ <;> rfl

end HandleTable

/-- A commit that a caller asks for. -/
structure Call (σ ε α : Type) where
  /-- The kind of the declaration. -/
  kind : Kind
  /-- Its name. -/
  name : String
  /-- Its code. -/
  code : Bytes
  /-- Stores the code under a handle. It works on a state, which it may change whether it succeeds
  or not. -/
  store : UInt32 → StateM σ (Except ε α)

/-- What is logged of a call. -/
structure Reply (ε α : Type) where
  /-- The declaration that was committed. -/
  key : Kind × String
  /-- The handles that the store was offered, one for each time that it was asked. -/
  offered : List UInt32
  /-- What the commit answered. -/
  result : Except ε (Committed α)

/-- The declaration and its handle, if the commit was successful. -/
def Reply.stored? : Reply ε α → Option ((Kind × String) × UInt32)
  | ⟨key, _, .ok (.stored handle _)⟩ => some (key, handle)
  | _ => none

/-- A table of handles on which calls are made. -/
structure Session (σ ε α : Type) where
  /-- The table. -/
  table : HandleTable
  /-- The state that the stores work on. -/
  state : σ
  /-- What was logged, oldest first. -/
  log : List (Reply ε α)

namespace Call

/-- The kind and the name of the declaration. -/
def key (c : Call σ ε α) : Kind × String := (c.kind, c.name)

/-- The store under watch: beside its own state there is a list, to which it adds the handle that
it is offered. -/
def watched (c : Call σ ε α) (handle : UInt32) : StateM (σ × List UInt32) (Except ε α) := do
  let (w, offered) ← get
  let (answer, left) := (c.store handle).run w
  set (left, offered ++ [handle])
  return answer

end Call

namespace Session

variable {s s' : Session σ ε α} {c : Call σ ε α}

/-- The successful commits, oldest first. -/
def stored (s : Session σ ε α) : List ((Kind × String) × UInt32) := s.log.filterMap Reply.stored?

/-- Make a call, and take the table and the state as the call leaves them. -/
def step (s : Session σ ε α) (c : Call σ ε α) : Session σ ε α :=
  match s.table.submit (s.state, []) c.kind c.name c.code c.watched with
  | ((result, table), (state, offered)) => ⟨table, state, s.log ++ [⟨c.key, offered, result⟩]⟩

/-- The session after a history of calls. -/
def run (w : σ) (calls : List (Call σ ε α)) : Session σ ε α := calls.foldl step ⟨.empty, w, []⟩

/-! ### One call -/

/-- What a call does to a session. -/
inductive Moves (s : Session σ ε α) (c : Call σ ε α) : Session σ ε α → Prop
  /-- There is no code, and the store is not asked. -/
  | skipped (hcode : c.code = []) :
      Moves s c ⟨s.table, s.state, s.log ++ [⟨c.key, [], .ok .codeEmpty⟩]⟩
  /-- The store is offered the next handle and fails. -/
  | failed {e : ε} {w : σ} (hcode : c.code ≠ [])
      (hstore : (c.store s.table.next).run s.state = (.error e, w)) :
      Moves s c ⟨s.table, w, s.log ++ [⟨c.key, [s.table.next], .error e⟩]⟩
  /-- The store is offered the next handle and takes it. -/
  | stored {receipt : α} {w : σ} (hcode : c.code ≠ [])
      (hstore : (c.store s.table.next).run s.state = (.ok receipt, w)) :
      Moves s c ⟨⟨s.table.next + 1, s.table.handles.insert c.key s.table.next⟩, w,
        s.log ++ [⟨c.key, [s.table.next], .ok (.stored s.table.next receipt)⟩]⟩

/-- A watched store does what the store does, and notes the handle that it was offered. -/
theorem run_watched (c : Call σ ε α) (handle : UInt32) (w : σ) (offered : List UInt32) :
    (c.watched handle).run (w, offered) =
      (((c.store handle).run w).1, ((c.store handle).run w).2, offered ++ [handle]) := rfl

/-- A call does one of the three. -/
theorem moves_step (s : Session σ ε α) (c : Call σ ε α) : s.Moves c (s.step c) := by
  unfold step
  rw [HandleTable.submit_eq]
  by_cases hcode : c.code = []
  · rw [if_pos (List.isEmpty_iff.mpr hcode)]
    exact .skipped hcode
  · rw [if_neg (List.isEmpty_iff.not.mpr hcode), run_watched]
    rcases hstore : (c.store s.table.next).run s.state with ⟨_ | _, w⟩
    · exact .failed hcode hstore
    · exact .stored hcode hstore

/-- A call is logged. -/
theorem Moves.length_log (h : s.Moves c s') : s'.log.length = s.log.length + 1 := by
  cases h <;> exact List.length_append

/-- The counter, the handles and the log of a session agree. -/
structure Sound (s : Session σ ε α) : Prop where
  /-- The counter counts the successful commits. -/
  count : s.table.next.toNat = s.stored.length
  /-- Their handles run from zero. -/
  handles : s.stored.map (fun e => e.2.toNat) = List.range s.stored.length
  /-- The handle of a declaration is that of its last successful commit. -/
  last : ∀ key, s.table.handles.find? key = s.stored.reverse.lookup key
  /-- If no declaration was committed again, then the handles are kept in the order of the
  commits. -/
  entries : (s.stored.map Prod.fst).Nodup → s.table.handles.entries = s.stored

/-- A session starts with an empty table and nothing stored. -/
theorem sound_start (w : σ) : (⟨.empty, w, []⟩ : Session σ ε α).Sound where
  count := rfl
  handles := rfl
  last _ := rfl
  entries _ := rfl

/-- Soundness is about the table and what was stored, not about the state or the other replies. -/
theorem Sound.of_eq (hs : s.Sound) (htable : s'.table = s.table) (hstored : s'.stored = s.stored) :
    s'.Sound := by
  refine ⟨?_, ?_, ?_, ?_⟩ <;> rw [hstored]
  · rw [htable, hs.count]
  · exact hs.handles
  · rw [htable]
    exact hs.last
  · rw [htable]
    exact hs.entries

/-- What is stored after one more reply. -/
theorem stored_concat (t : HandleTable) (w : σ) (log : List (Reply ε α)) (r : Reply ε α) :
    (⟨t, w, log ++ [r]⟩ : Session σ ε α).stored =
      log.filterMap Reply.stored? ++ r.stored?.toList := by
  cases h : r.stored? <;> simp [stored, h]

/-- A declaration that is in the table was committed. -/
theorem Sound.mem_stored {key : Kind × String} (hs : s.Sound) (h : key ∈ s.table.handles.keys) :
    key ∈ s.stored.map Prod.fst := by
  by_contra hnew
  have hnone : s.stored.reverse.lookup key = none := by
    rw [List.lookup_eq_none_iff]
    rintro e he
    rw [bne_iff_ne]
    rintro rfl
    exact hnew (List.mem_map_of_mem (List.mem_reverse.mp he))
  rw [← hs.last, Dict.find?_eq_none_iff] at hnone
  exact hnone h

/-- **A call keeps counter, handles and log in step.** -/
theorem Moves.sound (h : s.Moves c s') (hs : s.Sound) (hlog : s.log.length + 1 < 2 ^ 32) :
    s'.Sound := by
  cases h with
  | skipped hcode => exact hs.of_eq rfl (by rw [stored_concat]; exact List.append_nil _)
  | failed hcode hstore => exact hs.of_eq rfl (by rw [stored_concat]; exact List.append_nil _)
  | @stored receipt w hcode hstore =>
      have hcount := hs.count
      have hle : s.stored.length ≤ s.log.length := List.length_filterMap_le _ _
      have hnext : (s.table.next + 1).toNat = s.stored.length + 1 := by
        rw [UInt32.toNat_add, show (1 : UInt32).toNat = 1 from rfl, hcount,
          Nat.mod_eq_of_lt (by omega)]
      have hstored : ∀ t : HandleTable,
          (⟨t, w, s.log ++ [⟨c.key, [s.table.next], .ok (.stored s.table.next receipt)⟩]⟩ :
            Session σ ε α).stored = s.stored ++ [(c.key, s.table.next)] :=
        fun t => stored_concat ..
      constructor
      · rw [hstored, hnext, List.length_append]
        rfl
      · rw [hstored, List.map_append, hs.handles, List.length_append, List.length_singleton,
          List.range_succ, ← hcount]
        rfl
      · intro key
        rw [hstored, Dict.find?_insert, List.reverse_concat, List.lookup_cons, hs.last]
        by_cases hkey : key = c.key
        · rw [if_pos hkey, beq_iff_eq.mpr hkey]
        · rw [if_neg hkey, beq_eq_false_iff_ne.mpr hkey]
      · rw [hstored]
        intro hnodup
        rw [List.map_append, List.nodup_append] at hnodup
        have hnew : c.key ∉ s.table.handles.keys := fun hmem =>
          hnodup.2.2 _ (hs.mem_stored hmem) _ (List.mem_singleton.mpr rfl) rfl
        rw [Dict.entries_insert_of_not_mem _ _ hnew, hs.entries hnodup.1]

/-! ### Histories -/

/-- A session with one call more goes one step further. -/
theorem run_concat (w : σ) (calls : List (Call σ ε α)) (c : Call σ ε α) :
    run w (calls ++ [c]) = (run w calls).step c := by
  rw [run, List.foldl_concat]
  rfl

/-- Every call has one reply. -/
theorem length_log_run (w : σ) (calls : List (Call σ ε α)) :
    (run w calls).log.length = calls.length := by
  induction calls using List.reverseRecOn with
  | nil => rfl
  | append_singleton calls c ih =>
      rw [run_concat, (moves_step _ c).length_log, ih, List.length_append]; rfl

/-- Counter, handles and log are in step after any history. -/
theorem sound_run (w : σ) (calls : List (Call σ ε α)) (hcalls : calls.length < 2 ^ 32) :
    (run w calls).Sound := by
  -- on the calls from the last one back, as the session grows at its end
  induction calls using List.reverseRecOn with
  | nil => exact sound_start w
  | append_singleton calls c ih =>
      rw [List.length_append, List.length_singleton] at hcalls
      rw [run_concat]
      exact (moves_step _ c).sound (ih (by omega)) (by rwa [length_log_run])

/-- **Commits, whatever came before.** After any history of fewer than `2 ^ 32` calls, the handles
of the successful commits are `0, 1, …` in order and the table counts them; the handle of a
declaration is that of its last successful commit; and if no declaration was committed twice, the
table lists just the commits in order.

One call more asks its store once if there is code, and else not at all. It offers the number of
successful commits so far. A call without code leaves table and state as they were. A failing store
leaves the table as it was, after all steps that were made, and its error is the answer. So a commit
in steps comes to what `HandleTable.commit` gives. -/
theorem commits_exact (w : σ) (calls : List (Call σ ε α)) (hcalls : calls.length < 2 ^ 32) :
    let s := run w calls
    let n := UInt32.ofNat s.stored.length
    s.table.count.toNat = s.stored.length ∧
    s.stored.map (fun e => e.2.toNat) = List.range s.table.count.toNat ∧
    (∀ kind name, s.table.handle? kind name = s.stored.reverse.lookup (kind, name)) ∧
    ((s.stored.map Prod.fst).Nodup → s.table.handles.entries = s.stored) ∧
    (∀ c : Call σ ε α, ∃ offered result,
      (run w (calls ++ [c])).log = s.log ++ [⟨c.key, offered, result⟩] ∧
      (c.code = [] → offered = [] ∧ result = .ok .codeEmpty ∧
        (run w (calls ++ [c])).table = s.table ∧ (run w (calls ++ [c])).state = s.state) ∧
      (c.code ≠ [] → offered = [n] ∧
        (run w (calls ++ [c])).state = ((c.store n).run s.state).2 ∧
        (∀ e, ((c.store n).run s.state).1 = .error e →
          result = .error e ∧ (run w (calls ++ [c])).table = s.table) ∧
        ∀ receipt, ((c.store n).run s.state).1 = .ok receipt → result = .ok (.stored n receipt))) ∧
    ∀ c : Call σ ε α, s.table.submit s.state c.kind c.name c.code c.store =
      match s.table.commit c.kind c.name c.code (HandleTable.startedAt c.store s.state) with
      | .error (e, left) => ((.error e, s.table), left)
      | .ok (t, .codeEmpty) => ((.ok .codeEmpty, t), s.state)
      | .ok (t, .stored handle (receipt, left)) => ((.ok (.stored handle receipt), t), left) := by
  have hs := sound_run w calls hcalls
  have hn : UInt32.ofNat (run w calls).stored.length = (run w calls).table.next := by
    rw [← hs.count, UInt32.ofNat_toNat]
  refine ⟨hs.count, ?_, fun kind name => hs.last (kind, name), hs.entries, ?_,
    fun c => HandleTable.submit_eq_commit ..⟩
  · rw [HandleTable.count, hs.count, hs.handles]
  · intro c
    have hmoves := moves_step (run w calls) c
    rw [← run_concat] at hmoves
    rw [hn]
    generalize run w (calls ++ [c]) = s' at hmoves
    cases hmoves with
    | skipped hcode => exact ⟨_, _, rfl, fun _ => ⟨rfl, rfl, rfl, rfl⟩, fun h => absurd hcode h⟩
    | failed hcode hstore =>
        rw [hstore]
        refine ⟨_, _, rfl, fun h => absurd h hcode, fun _ => ⟨rfl, rfl, ?_, nofun⟩⟩
        rintro e ⟨⟩
        exact ⟨rfl, rfl⟩
    | stored hcode hstore =>
        rw [hstore]
        refine ⟨_, _, rfl, fun h => absurd h hcode, fun _ => ⟨rfl, rfl, nofun, ?_⟩⟩
        rintro receipt ⟨⟩
        rfl

/-- A store that notes the handle it is offered, and fails with this error if there is one. -/
def noting (e? : Option String) (handle : UInt32) : StateM (List UInt32) (Except String Unit) := do
  modify (· ++ [handle])
  return e?.elim (.ok ()) .error

/-- Calls without code, with a store that fails, and with a declaration that is committed again. -/
def mixedCalls : List (Call (List UInt32) String Unit) :=
  [⟨.fragment, "a", [], noting none⟩, ⟨.fragment, "a", [0x61], noting none⟩,
    ⟨.shaderModule, "a", [0x62], noting (some "full")⟩, ⟨.shaderModule, "a", [0x63], noting none⟩,
    ⟨.fragment, "a", [0x64], noting none⟩]

/-- Empty code is offered no handle. A store that fails is offered the handle that the next one
gets. A name that comes again is stored a second time, and the table has its later handle. -/
theorem mixedCalls_commits :
    (run [] mixedCalls).log.map Reply.offered = [[], [0], [1], [1], [2]] ∧
    (run [] mixedCalls).state = [0, 1, 1, 2] ∧
    (run [] mixedCalls).stored =
      [((.fragment, "a"), 0), ((.shaderModule, "a"), 1), ((.fragment, "a"), 2)] ∧
    (run [] mixedCalls).table.count.toNat = 3 ∧
    (run [] mixedCalls).table.handle? .fragment "a" = some 2 := by
  obtain ⟨hcount, -, hlast, -⟩ := commits_exact [] mixedCalls (by decide)
  have hstored : (run [] mixedCalls).stored =
      [((.fragment, "a"), 0), ((.shaderModule, "a"), 1), ((.fragment, "a"), 2)] := by decide +kernel
  refine ⟨by decide +kernel, by decide +kernel, hstored, ?_, ?_⟩
  · rw [hcount, hstored]
    rfl
  · rw [hlast, hstored]
    rfl

end Session

end ShaderPack
