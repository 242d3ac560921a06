import ShaderPack.Assembly.Error
import ShaderPack.Container.Basic
import ShaderPack.Define.Expansion
import ShaderPack.HandleTable
import ShaderPack.Modules.Flatten
import ShaderPack.Options
import ShaderPack.Program.Basic
import ShaderPack.Schedule
import ShaderPack.Source
import ShaderPack.Wgsl.Check

/-!
# Assembling a program

An assembly takes in the declarations of a program one by one. It keeps the module table, the
flattened code of fragments, the handles given out and the container, and notes what happens.

`Assembly.addFragment` and `Assembly.addShaderModule` take in a declaration. Both put together three
smaller steps: `Setting.expand` makes code from what the declaration says, `Assembly.addModule`
enters a module in the tables, and `Assembly.addShader` gives a shader its handle and its
instruction.
-/

namespace ShaderPack

/-- What an assembly works with. -/
structure Setting where
  /-- How files are read. -/
  files : Files
  /-- The options. -/
  options : Options
  /-- The values of names. -/
  defines : Defines
  /-- The check of code, which is used if the options ask for it. -/
  check : Wgsl.Check

/-- The state of an assembly. -/
structure Assembly where
  /-- The modules. -/
  table : ModuleTable
  /-- The flattened code of the fragments. -/
  cache : CodeCache
  /-- The handles of the shaders. -/
  handles : HandleTable
  /-- The container. -/
  container : Container
  /-- What was noted, earliest first. -/
  log : Array Event

/-- An assembly that ended early. -/
structure Failure where
  /-- The reason. -/
  error : AssemblyError
  /-- What was noted before, earliest first. -/
  log : Array Event

namespace Setting

/-- The code that a declaration's text stands for: loaded and expanded. -/
def expand (s : Setting) (raw : String) : Except AssemblyError Expansion :=
  match Source.load s.files s.options.baseDir raw with
  | .error e => .error e
  | .ok source =>
    match s.defines.expand source with
    | none => .error (.expansionOverflow Defines.byteLimit)
    | some x => .ok x

/-- Check the flattened code of a declaration, if the options ask for it. -/
def validate (s : Setting) (kind : Kind) (name : String) (code : Bytes) :
    Except AssemblyError Unit :=
  if s.options.validate && !code.isEmpty then
    let text := Utf8.decodeLossy code
    match s.check text with
    | none => .ok ()
    | some d => .error (.invalidCode kind name text d)
  else .ok ()

/-- Add the instruction that creates a shader. In runtime mode it points at the shader's module, if
there is one; otherwise the flattened code is stored for it. -/
def store (s : Setting) (c : Container) (code : Bytes) (module? : Option UInt32) (handle : UInt32) :
    Except AssemblyError Container :=
  match s.options.mode, module? with
  | .runtime, some id => .ok (c.push (.create handle (.module id)))
  | _, _ =>
    match c.blobs.add? code with
    | none => .error (.storeOverflow BlobStore.limit)
    | some (blobs, id) => .ok ({ c with blobs }.push (.create handle (.blob id)))

end Setting

namespace ModuleTable

/-- The modules of the fragments with these names, each once. Names without a module are left
out. -/
def importIds (t : ModuleTable) (names : List String) : List UInt32 :=
  (names.filterMap t.fragmentId?).eraseDups

/-- What there is to note about the imports of `owner`: each one without a module. -/
def importEvents (t : ModuleTable) (owner : String) (names : List String) : List Event :=
  (names.filter fun name => (t.fragmentId? name).isNone).map (.importDropped owner)

end ModuleTable

namespace Assembly

/-- The assembly before the first declaration. -/
def empty : Assembly := ⟨.empty, .empty, .empty, .empty, #[]⟩

instance : Inhabited Assembly := ⟨empty⟩

/-- Note events. -/
def note (a : Assembly) (es : List Event) : Assembly := { a with log := a.log ++ es }

/-- Go on with a result, or end the assembly with its error. -/
def attempt {α : Type} (a : Assembly) : Except AssemblyError α → Except Failure α
  | .error e => .error ⟨e, a.log⟩
  | .ok x => .ok x

/-- Enter a module in the tables: its own code as a blob, its name, its imports. Gives its id. -/
def addModule (a : Assembly) (kind : Kind) (name : String) (code : Bytes) (deps : List UInt32) :
    Except AssemblyError (Assembly × UInt32) :=
  match a.container.blobs.add? code with
  | none => .error (.storeOverflow BlobStore.limit)
  | some (blobs, blob) =>
    match blobs.offset? blob with
    | none => .error (.defect (.unplacedBlob blob))
    | some offset =>
      let named := a.container.strings.intern name
      let linked := a.container.dependencies.add blob deps
      match a.table.register kind name named.2 blob offset deps with
      | .error fault => .error (.defect (.unregistrable fault))
      | .ok (table, id) =>
        if id = linked.2 then
          let container :=
            { a.container with blobs, strings := named.1, dependencies := linked.1 }
          .ok ({ a with table, container }, id)
        else .error (.defect (.tablesOutOfStep id linked.2))

/-- Give a declaration a shader with the flattened code `code`: check the code, take a handle, add
the instruction. -/
def addShader (s : Setting) (a : Assembly) (kind : Kind) (name : String) (code : Bytes)
    (module? : Option UInt32) : Except AssemblyError Assembly :=
  match s.validate kind name code with
  | .error e => .error e
  | .ok () =>
    match a.handles.commit kind name code (s.store a.container code module?) with
    | .error e => .error e
    | .ok (handles, .stored _ container) => .ok { a with handles, container }
    | .ok (_, .codeEmpty) => .ok (a.note [.nothingStored kind name])

/-- Take in a fragment: it becomes a module and a shader, unless it has no code. -/
def addFragment (s : Setting) (a : Assembly) (name : String) (d : Declaration) :
    Except Failure Assembly := do
  let own ← a.attempt (s.expand (Declaration.fragmentCode d))
  let a := a.note own.events
  if own.text.isEmpty then
    return a.note [.emptyFragment name]
  let imports := Declaration.imports d
  let deps := a.table.importIds imports
  let a := a.note (a.table.importEvents name imports)
  let (a, id) ← a.attempt (a.addModule .fragment name own.text deps)
  let code := a.table.flatten a.container.blobs deps own.text
  let a := a.note (a.table.closure deps).events
  let a := { a with cache := a.cache.insert name code }
  a.attempt (a.addShader s .fragment name code (some id))

/-- Take in a shader module whose code is that of a fragment. -/
def addReference (s : Setting) (a : Assembly) (name target : String) : Except Failure Assembly :=
  match a.cache.find? target with
  | none => .ok (a.note [.danglingReference name target])
  | some code => a.attempt (a.addShader s .shaderModule name code (a.table.fragmentId? target))

/-- Take in a shader module with code of its own. In runtime mode it becomes a module too. -/
def addInline (s : Setting) (a : Assembly) (name raw : String) (d : Declaration) :
    Except Failure Assembly := do
  let own ← a.attempt (s.expand raw)
  let a := a.note own.events
  if own.text.isEmpty then
    return a.note [.emptyShaderModule name]
  let imports := Declaration.imports d
  let deps := a.table.importIds imports
  let a := a.note (a.table.importEvents name imports)
  let code := a.table.flatten a.container.blobs deps own.text
  let a := a.note (a.table.closure deps).events
  match s.options.mode with
  | .legacy => a.attempt (a.addShader s .shaderModule name code none)
  | .runtime =>
    let (a, id) ← a.attempt (a.addModule .shaderModule name own.text deps)
    a.attempt (a.addShader s .shaderModule name code (some id))

/-- Take in a shader module. -/
def addShaderModule (s : Setting) (a : Assembly) (name : String) (d : Declaration) :
    Except Failure Assembly :=
  match Declaration.codeProperty? d with
  | none => .ok (a.note [.missingCode name])
  | some code =>
    match code.reference? with
    | some target => a.addReference s name target
    | none => a.addInline s name (code.text?.getD "") d

/-- End the instructions, and tell the loader what they point at. -/
def finish (a : Assembly) (mode : Mode) : Assembly :=
  let container := a.container.push .finish
  match mode with
  | .legacy => { a with container }
  | .runtime =>
    { a with container := { container with flags := container.flags ||| Container.runtimeFlag } }

end Assembly

namespace Program

/-- The schedule of a program's fragments. -/
def schedule (p : Program) : Schedule := .ofDeps p.importPlaces

/-- The fragments in the order in which they are taken in. -/
def scheduledFragments (p : Program) : List (String × Declaration) :=
  p.schedule.order.filterMap fun i => p.fragments.entries[i]?

/-- What there is to note about a finished assembly. -/
def assembledEvent (p : Program) (a : Assembly) : Event :=
  .assembled p.fragments.size p.shaderModules.size a.table.count a.handles.count.toNat

/-- Assemble a program with a given check of code: first the fragments, each behind what it imports,
then the shader modules as they are declared. -/
def assembleWith (check : Wgsl.Check) (files : Files) (options : Options) (p : Program) :
    Except Failure Assembly := do
  let s : Setting := ⟨files, options, .ofTexts p.defineTexts, check⟩
  let a := Assembly.empty.note p.schedule.events
  let a ← p.scheduledFragments.foldlM (fun a e => a.addFragment s e.1 e.2) a
  let a ← p.shaderModules.entries.foldlM (fun a e => a.addShaderModule s e.1 e.2) a
  let a := a.finish options.mode
  return a.note [p.assembledEvent a]

/-- Assemble a program. -/
def assemble (files : Files) (options : Options) (p : Program) : Except Failure Assembly :=
  p.assembleWith Wgsl.check files options

end Program

end ShaderPack
