import ShaderPack.Bytes
import ShaderPack.Dict
import ShaderPack.Kind

/-!
# Shader handles

A shader gets its handle only when its code is known not to be empty and has been stored. So the
handles in use always run from zero without a gap.

A commit changes the table step by step (`commitSteps`), and a store that fails ends it where it is.
`submit` gives what becomes of the answer, the table and the state that stores work on; `commit` is
its answer for stores without a state. `submit_eq` tells all of this at once.
-/

namespace ShaderPack

/-- The handles given out so far. -/
structure HandleTable where
  /-- The handle that the next shader gets. -/
  next : UInt32
  /-- The handle of each declaration that has one. -/
  handles : Dict (Kind × String) UInt32

/-- How a commit ended. -/
inductive Committed (α : Type) where
  /-- There was no code, so no handle was taken. -/
  | codeEmpty
  /-- The code is stored under a handle; `receipt` is what storing it gave. -/
  | stored (handle : UInt32) (receipt : α)
  deriving DecidableEq, Repr

namespace HandleTable

/-- The table without handles. -/
def empty : HandleTable := ⟨0, .empty⟩

instance : Inhabited HandleTable := ⟨empty⟩

/-- The number of handles given out. -/
def count (t : HandleTable) : UInt32 := t.next

/-- The handle of a declaration. -/
def handle? (t : HandleTable) (kind : Kind) (name : String) : Option UInt32 :=
  t.handles.find? (kind, name)

/-- Store code under the next handle, one step after another. `store` is offered that handle, and
works on a state of its own; it is not asked for empty code. What was done before `store` fails
stays done, in the table as in that state. -/
def commitSteps {σ ε α : Type} (kind : Kind) (name : String) (code : Bytes)
    (store : UInt32 → StateM σ (Except ε α)) :
    ExceptT ε (StateT HandleTable (StateM σ)) (Committed α) := do
  if code.isEmpty then return .codeEmpty
  let handle := (← get).next
  let receipt ← ofExcept (← store handle)
  modify fun t => { t with next := t.next + 1 }
  modify fun t => { t with handles := t.handles.insert (kind, name) handle }
  return .stored handle receipt

/-- Ask for code to be stored. Gives the answer with the table as it is left, and the state of
`store` as it is left. -/
def submit {σ ε α : Type} (t : HandleTable) (w : σ) (kind : Kind) (name : String) (code : Bytes)
    (store : UInt32 → StateM σ (Except ε α)) : (Except ε (Committed α) × HandleTable) × σ :=
  ((commitSteps kind name code store).run.run t).run w

/-- Store code under the next handle, where `store` has no state. A caller that gives up at the
first failure has no use for the table that a failure leaves. -/
def commit {ε α : Type} (t : HandleTable) (kind : Kind) (name : String) (code : Bytes)
    (store : UInt32 → Except ε α) : Except ε (HandleTable × Committed α) :=
  match t.submit () kind name code fun handle => pure (store handle) with
  | ((.error e, _), _) => .error e
  | ((.ok committed, left), _) => .ok (left, committed)

/-- Reading the table at the start. -/
theorem run_get_bind {τ σ ε α : Type} (f : τ → ExceptT ε (StateT τ (StateM σ)) α) (t : τ) (w : σ) :
    ((get >>= f).run.run t).run w = ((f t).run.run t).run w := rfl

/-- Running an action that works on the other state. -/
theorem run_lift_bind {τ σ ε α β : Type} (action : StateM σ β)
    (f : β → ExceptT ε (StateT τ (StateM σ)) α) (t : τ) (w : σ) :
    ((liftM action >>= f).run.run t).run w =
      ((f (action.run w).1).run.run t).run (action.run w).2 := rfl

/-- What a request comes to: counter and handles move together, and only once `store` has
succeeded. -/
theorem submit_eq {σ ε α : Type} (t : HandleTable) (w : σ) (kind : Kind) (name : String)
    (code : Bytes) (store : UInt32 → StateM σ (Except ε α)) :
    t.submit w kind name code store =
      if code.isEmpty then ((.ok .codeEmpty, t), w)
      else
        match (store t.next).run w with
        | (.error e, left) => ((.error e, t), left)
        | (.ok receipt, left) =>
          ((.ok (.stored t.next receipt), ⟨t.next + 1, t.handles.insert (kind, name) t.next⟩),
            left) := by
  unfold submit commitSteps
  cases code.isEmpty with
  | true => rfl
  | false =>
      rw [if_neg Bool.false_ne_true, if_neg Bool.false_ne_true, run_get_bind]
      dsimp only
      rw [run_lift_bind]
      rcases (store t.next).run w with ⟨e | receipt, left⟩ <;> rfl

/-- The same for `commit`. -/
theorem commit_eq {ε α : Type} (t : HandleTable) (kind : Kind) (name : String) (code : Bytes)
    (store : UInt32 → Except ε α) :
    t.commit kind name code store =
      if code.isEmpty then .ok (t, .codeEmpty)
      else
        match store t.next with
        | .error e => .error e
        | .ok receipt =>
          .ok (⟨t.next + 1, t.handles.insert (kind, name) t.next⟩, .stored t.next receipt) := by
  rw [commit, submit_eq]
  cases code.isEmpty with
  | true => rfl
  | false =>
      simp only [Bool.false_eq_true, if_false, StateT.run_pure]
      cases store t.next <;> rfl

end HandleTable

end ShaderPack
