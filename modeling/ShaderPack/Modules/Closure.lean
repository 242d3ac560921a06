import ShaderPack.Event
import ShaderPack.Modules.Table

/-!
# What a module reaches

The closure of a list of modules has everything they reach through imports, each module once and
behind everything it imports itself. It is found by a walk with an explicit stack. The walk is
allowed a fixed number of steps; past that it is cut off and the closure is what was found by then.
-/

namespace ShaderPack

/-- The most imports that count in one declaration. -/
def maxImports : Nat := 32

namespace ModuleTable

/-- The longest chain of imports that the walk is made for. -/
def maxImportDepth : Nat := 64

/-- The most steps of one walk. -/
def stepLimit : Nat := maxImports * maxImportDepth

/-- A step that a walk still has to take. -/
inductive Visit where
  /-- Look at a module, and at what it imports. -/
  | enter (id : UInt32)
  /-- List a module, everything it imports being done. -/
  | leave (id : UInt32)
  deriving DecidableEq, Repr

/-- The outcome of a walk. -/
structure Closure where
  /-- The modules found, each behind what it imports. -/
  order : List UInt32
  /-- Whether steps were left when the limit was reached. -/
  cutOff : Bool
  deriving DecidableEq, Repr

/-- Take at most `fuel` steps off the stack. `path` has the modules entered and not left, `found`
the modules left, latest first. A module that is on the path, found or not registered is passed
over. -/
def walk (t : ModuleTable) : (fuel : Nat) → (stack : List Visit) →
    (path found : List UInt32) → Closure
  | _, [], _, found => ⟨found.reverse, false⟩
  | 0, _ :: _, _, found => ⟨found.reverse, true⟩
  | fuel + 1, .enter id :: stack, path, found =>
    if found.contains id || path.contains id then t.walk fuel stack path found
    else
      match t.get? id with
      | none => t.walk fuel stack path found
      | some m => t.walk fuel (m.deps.map .enter ++ .leave id :: stack) (id :: path) found
  | fuel + 1, .leave id :: stack, path, found =>
    t.walk fuel stack (path.erase id) (if found.contains id then found else id :: found)

/-- The closure of a list of modules. -/
def closure (t : ModuleTable) (roots : List UInt32) : Closure :=
  t.walk stepLimit (roots.map .enter) [] []

/-- What there is to note about a closure: a warning if it was cut off. -/
def Closure.events (c : Closure) : List Event :=
  if c.cutOff then [.closureCutOff stepLimit c.order.length] else []

end ModuleTable

end ShaderPack
