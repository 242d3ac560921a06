import ShaderPack.Event

/-!
# Schedules

Fragments are handled so that a fragment comes after everything it imports, and otherwise in the
order of their declaration. Fragments that import from a cycle cannot be placed like that; they come
last, in the order of declaration.

Dependencies are given by index: `deps` lists for each index the indices it depends on. An index
that is out of range stands for something that does not exist, and waiting for it is pointless, so
it counts as done.
-/

namespace ShaderPack

/-- An order in which to handle indices. -/
structure Schedule where
  /-- The indices, first one first. -/
  order : List Nat
  /-- How many indices at the end depend on a cycle. -/
  drained : Nat
  deriving DecidableEq, Repr

namespace Schedule

/-- What is placed so far. -/
structure Progress where
  /-- The placed indices, latest first. -/
  placed : List Nat
  /-- For each index whether it is placed. -/
  done : Array Bool
  deriving DecidableEq, Repr

namespace Progress

/-- Nothing is placed of `n` indices. -/
def start (n : Nat) : Progress := ⟨[], Array.replicate n false⟩

/-- Whether there is no need to wait for an index: it is placed, or it is out of range. -/
def isDone (p : Progress) (i : Nat) : Bool := p.done.getD i true

/-- Place an index behind the others. -/
def place (p : Progress) (i : Nat) : Progress := ⟨i :: p.placed, p.done.setIfInBounds i true⟩

/-- Place an index, if that is still to be done and its dependencies `needs` allow it. -/
def visit (p : Progress) (needs : List Nat) (i : Nat) : Progress :=
  if !p.isDone i && needs.all p.isDone then p.place i else p

end Progress

/-- One pass over all indices in increasing order. What the pass places counts at once. -/
def pass (deps : List (List Nat)) (p : Progress) : Progress :=
  deps.zipIdx.foldl (fun p e => p.visit e.1 e.2) p

/-- Make passes until one places nothing, at most `fuel` of them. -/
def passes (deps : List (List Nat)) : (fuel : Nat) → (p : Progress) → Progress
  | 0, p => p
  | fuel + 1, p =>
    let count := p.placed.length
    let next := pass deps p
    if next.placed.length = count then next else passes deps fuel next

/-- The most passes that are made over `n` indices. -/
def passLimit (n : Nat) : Nat := n * n + 1

/-- The schedule for these dependencies. -/
def ofDeps (deps : List (List Nat)) : Schedule :=
  let p := passes deps (passLimit deps.length) (.start deps.length)
  let rest := (List.range deps.length).filter fun i => !p.isDone i
  ⟨p.placed.reverse ++ rest, rest.length⟩

/-- What there is to note about a schedule: a warning if indices depend on a cycle. -/
def events (s : Schedule) : List Event :=
  if s.drained = 0 then [] else [.cycleDrained s.drained]

end Schedule

end ShaderPack
