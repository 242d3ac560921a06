import ShaderPack.Assembly.Basic

/-!
# Summaries

A summary lists the modules and shaders of an assembly, for tools that do not read containers.
-/

namespace ShaderPack

namespace Assembly

/-- The mode that a container's flags tell. -/
def mode (a : Assembly) : Mode :=
  if a.container.flags &&& Container.runtimeFlag = 0 then .legacy else .runtime

/-- A count as a JSON value. -/
def countValue (n : Nat) : Json.Value := .num (.int n)

/-- A module in a summary. -/
def moduleValue (m : Module) : Json.Value :=
  .obj [("id", countValue m.id.toNat), ("kind", .str m.kind.name), ("name", .str m.name),
    ("dataOffset", countValue m.offset.toNat),
    ("deps", .arr (m.deps.map fun d => countValue d.toNat))]

/-- A shader in a summary. -/
def shaderValue (e : (Kind × String) × UInt32) : Json.Value :=
  .obj [("handle", countValue e.2.toNat), ("kind", .str e.1.1.name), ("name", .str e.1.2)]

/-- The summary of an assembly as a JSON value. -/
def summary (a : Assembly) : Json.Value :=
  .obj [("mode", .str a.mode.name),
    ("modules", .arr (a.table.modules.toList.map moduleValue)),
    ("shaders", .arr (a.handles.handles.entries.map shaderValue)),
    ("dataBlobs", countValue a.container.blobs.count),
    ("strings", countValue a.container.strings.count)]

end Assembly

end ShaderPack
