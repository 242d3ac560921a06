import ShaderPack.Kind

/-!
# The module table

Every stored fragment, and in runtime mode every inline shader module, is a module. A module is
known by the count of modules registered before it. Names are kept apart by kind, so a fragment and
a shader module may share one. A module can depend only on modules registered before it, so the
dependencies never form a cycle.
-/

namespace ShaderPack

/-- What is known of a module. -/
structure Module where
  /-- Its place in the table. -/
  id : UInt32
  /-- The kind of declaration it comes from. -/
  kind : Kind
  /-- The name of that declaration. -/
  name : String
  /-- The name's id in the string table. -/
  nameId : UInt32
  /-- The blob with the module's own code. -/
  blob : UInt32
  /-- The position of that blob in the pool. -/
  offset : UInt32
  /-- The modules it imports directly, in order. -/
  deps : List UInt32
  deriving DecidableEq, Repr

/-- Why a module cannot be registered. -/
inductive RegisterFault where
  /-- A module of this kind and name is there already. -/
  | nameTaken (kind : Kind) (name : String)
  /-- A dependency of the module is not registered. -/
  | unknownDependency (name : String)
  deriving DecidableEq, Repr

/-- The text of a registration fault. -/
def RegisterFault.message : RegisterFault → String
  | nameTaken kind name => kind.name ++ " module " ++ name ++ " registered twice"
  | unknownDependency name => "module " ++ name ++ " depends on an unregistered module id"

/-- The modules registered so far. -/
structure ModuleTable where
  /-- The modules, in the order of their ids. -/
  modules : Array Module

namespace ModuleTable

/-- The table without modules. -/
def empty : ModuleTable := ⟨#[]⟩

instance : Inhabited ModuleTable := ⟨empty⟩

/-- The number of modules. -/
def count (t : ModuleTable) : Nat := t.modules.size

/-- The module with an id. -/
def get? (t : ModuleTable) (id : UInt32) : Option Module := t.modules[id.toNat]?

/-- The id of the module of a kind with a name. -/
def lookup (t : ModuleTable) (kind : Kind) (name : String) : Option UInt32 :=
  (t.modules.find? fun m => m.kind = kind && m.name = name).map Module.id

/-- The id of the fragment with a name. Imports see nothing else. -/
def fragmentId? (t : ModuleTable) (name : String) : Option UInt32 := t.lookup .fragment name

/-- Register a module at the end of the table and give its id. -/
def register (t : ModuleTable) (kind : Kind) (name : String) (nameId blob offset : UInt32)
    (deps : List UInt32) : Except RegisterFault (ModuleTable × UInt32) :=
  let id := UInt32.ofNat t.count
  if (t.lookup kind name).isSome then .error (.nameTaken kind name)
  else if deps.all fun d => d < id then
    .ok (⟨t.modules.push ⟨id, kind, name, nameId, blob, offset, deps⟩⟩, id)
  else .error (.unknownDependency name)

end ModuleTable

end ShaderPack
