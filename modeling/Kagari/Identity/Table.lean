import Kagari.Lib.Interner
import Kagari.Lib.Stateful
import Kagari.Types.Wire

/-!
# The definition identity table

`kagari-common/src/identity.rs`, `identity/table.rs` and `identity/table/module.rs`: an append-only
interner of declaration paths. A declaration is a node: the root of a module, or a named child of
another node. A `HashMap` of the source is a function to `Option`; a `u32` index is a `Nat`.

A builder method that stops with an error keeps what it has changed (`Lib.Stateful`).
-/

namespace Kagari.Identity

open Lib Stateful

/-! ## Paths -/

def maxIdentityPathSegments : Nat := 64

def maxPortableIdentityRecords : Nat := 1000000

structure ModuleIdentity where
  package : String
  path : List String
deriving DecidableEq

def ModuleIdentity.withinPathLimit (module : ModuleIdentity) : Bool :=
  module.path.length ≤ maxIdentityPathSegments

inductive DefinitionKind where
  | function | const | module | struct | field | enum | trait | impl | method | variant
  | associatedType | static | typeAlias
deriving DecidableEq

structure DefinitionPathSegment where
  kind : DefinitionKind
  name : String
  occurrence : Nat
deriving DecidableEq

structure DefinitionPath where
  module : ModuleIdentity
  path : List DefinitionPathSegment
deriving DecidableEq

def DefinitionPath.withinPathLimit (path : DefinitionPath) : Bool :=
  path.module.withinPathLimit && decide (path.path.length ≤ maxIdentityPathSegments)

/-! ## Tables -/

inductive Node where
  | root (module : Nat)
  | child (parent : Nat) (kind : DefinitionKind) (name : Nat) (occurrence : Nat)
deriving DecidableEq

structure TableData where
  modules : List ModuleIdentity
  moduleIndices : ModuleIdentity → Option Nat
  packageRoots : Nat → Option Nat
  moduleChildren : Nat × Nat → Option Nat
  symbols : List String
  symbolIndices : String → Option Nat
  nodes : List Node
  nodeIndices : Node → Option Nat
  depths : List Nat

/-- `TableData::default`. -/
def TableData.empty : TableData where
  modules := []
  moduleIndices := fun _ => none
  packageRoots := fun _ => none
  moduleChildren := fun _ => none
  symbols := []
  symbolIndices := fun _ => none
  nodes := []
  nodeIndices := fun _ => none
  depths := []

namespace TableData

variable (data : TableData)

/-- The module of a node's root: the node itself, or the root of its parent. The loop ends at a root;
the fuel stands for a parent chain that does not get there. -/
def moduleLoop : Nat → Nat → Option ModuleIdentity
  | 0, _ => none
  | fuel + 1, index =>
    match data.nodes[index]? with
    | some (.root module) => data.modules[module]?
    | some (.child parent _ _ _) => moduleLoop fuel parent
    | none => none

/-- The nodes from a child up to its root, which is left out, in an array of `capacity` places; `none`
is a write past its end. -/
def segmentIndices : Nat → Nat → Option (List Nat)
  | capacity, index =>
    match data.nodes[index]? with
    | some (.root _) => some []
    | some (.child parent _ _ _) =>
      match capacity with
      | 0 => none
      | capacity + 1 => (segmentIndices capacity parent).map (index :: ·)
    | none => none

/-- The segment of a child. -/
def segment (index : Nat) : Option DefinitionPathSegment :=
  match data.nodes[index]? with
  | some (.child _ kind name occurrence) =>
    (data.symbols[name]?).map fun name => ⟨kind, name, occurrence⟩
  | _ => none

/-- `DefinitionView::segments`, the outermost first. -/
def segments (index : Nat) : Option (List DefinitionPathSegment) := do
  let indices ← data.segmentIndices maxIdentityPathSegments index
  indices.reverse.mapM data.segment

/-- `DefinitionView::to_path`. -/
def toPath (index : Nat) : Option DefinitionPath := do
  let module ← data.moduleLoop (index + 1) index
  let path ← data.segments index
  return { module, path }

def lookupRoot (module : ModuleIdentity) : Option Nat := do
  let module ← data.moduleIndices module
  data.nodeIndices (.root module)

def lookupSegments : List DefinitionPathSegment → Nat → Option Nat
  | [], index => some index
  | segment :: path, index => do
    let name ← data.symbolIndices segment.name
    let index ← data.nodeIndices (.child index segment.kind name segment.occurrence)
    lookupSegments path index

def lookup (path : DefinitionPath) : Option Nat := do
  let index ← data.lookupRoot path.module
  data.lookupSegments path.path index

/-- Walk a module path from a module root. -/
def lookupModuleNames : List String → Nat → Option Nat
  | [], index => some index
  | name :: path, index => do
    let name ← data.symbolIndices name
    let index ← data.moduleChildren (index, name)
    lookupModuleNames path index

def lookupModulePath (package : String) (path : List String) : Option Nat := do
  let package ← data.symbolIndices package
  let index ← data.packageRoots package
  data.lookupModuleNames path index

end TableData

/-- An immutable snapshot. -/
structure DefinitionTable where
  id : Nat
  data : TableData

def validateId (table : Nat) (data : TableData) (id : DefinitionId) :
    Except DefinitionTableError Unit :=
  if id.table ≠ table then .error .foreignTable
  else if data.nodes.length ≤ id.index then .error .invalidIndex
  else .ok ()

namespace DefinitionTable

variable (table : DefinitionTable)

/-- `resolve`, then `to_path`; the inner `none` would be a panic. -/
def resolve (id : DefinitionId) : Except DefinitionTableError (Option DefinitionPath) := do
  validateId table.id table.data id
  return table.data.toPath id.index

def lookup (path : DefinitionPath) : Option DefinitionId :=
  (table.data.lookup path).map fun index => ⟨table.id, index⟩

def lookupRoot (module : ModuleIdentity) : Option DefinitionId :=
  (table.data.lookupRoot module).map fun index => ⟨table.id, index⟩

def lookupModulePath (package : String) (path : List String) : Option DefinitionId :=
  (table.data.lookupModulePath package path).map fun index => ⟨table.id, index⟩

end DefinitionTable

/-! ## Interning -/

namespace TableData

def pushSymbol (data : TableData) (name : String) : TableData :=
  { data with
    symbols := data.symbols ++ [name]
    symbolIndices := Function.update data.symbolIndices name (some data.symbols.length) }

def pushModule (data : TableData) (module : ModuleIdentity) : TableData :=
  { data with
    modules := data.modules ++ [module]
    moduleIndices := Function.update data.moduleIndices module (some data.modules.length) }

def pushNode (data : TableData) (node : Node) (depth : Nat) : TableData :=
  { data with
    nodes := data.nodes ++ [node]
    depths := data.depths ++ [depth]
    nodeIndices := Function.update data.nodeIndices node (some data.nodes.length) }

/-- Record the root of a package. -/
def setPackageRoot (data : TableData) (package root : Nat) : TableData :=
  { data with packageRoots := Function.update data.packageRoots package (some root) }

/-- Record the root of a module one name below another. -/
def setModuleChild (data : TableData) (parent name child : Nat) : TableData :=
  { data with moduleChildren := Function.update data.moduleChildren (parent, name) (some child) }

end TableData

abbrev TableM := Stateful TableData DefinitionTableError

def checkedIndex (index : Nat) : TableM Nat :=
  if index < 2 ^ 32 then pure index else throw .indexExhausted

def internSymbol (name : String) : TableM Nat := do
  let data ← get
  match data.symbolIndices name with
  | some symbol => return symbol
  | none => do
    let symbol ← checkedIndex data.symbols.length
    modify (·.pushSymbol name)
    return symbol

def internNode (node : Node) (depth : Nat) : TableM Nat := do
  let data ← get
  match data.nodeIndices node with
  | some index => return index
  | none =>
    if maxPortableIdentityRecords ≤ data.nodes.length then throw .portableLimit
    else do
      let index ← checkedIndex data.nodes.length
      modify (·.pushNode node depth)
      return index

/-- The index of a module's identity. -/
def internIdentity (module : ModuleIdentity) : TableM Nat := do
  let data ← get
  match data.moduleIndices module with
  | some index => return index
  | none => do
    let index ← checkedIndex data.modules.length
    modify (·.pushModule module)
    return index

def internRootRecord (module : ModuleIdentity) : TableM Nat :=
  if module.withinPathLimit then do
    let index ← internIdentity module
    internNode (.root index) 0
  else throw .pathLimit

/-- The root of a package, with its entry in `package_roots`. -/
def internPackage (package : String) : TableM Nat := do
  let root ← internRootRecord ⟨package, []⟩
  let symbol ← internSymbol package
  modify (·.setPackageRoot symbol root)
  return root

/-- The module one name below the root of `parent`, with its entry in `module_children`. -/
def internChildModule (parent : ModuleIdentity) (root : Nat) (name : String) : TableM Nat := do
  let child ← internRootRecord { parent with path := parent.path ++ [name] }
  let symbol ← internSymbol name
  modify (·.setModuleChild root symbol child)
  return child

def internModuleNames : List String → ModuleIdentity → Nat → TableM Nat
  | [], _, root => return root
  | name :: path, parent, root => do
    let child ← internChildModule parent root name
    internModuleNames path { parent with path := parent.path ++ [name] } child

/-- `intern_module`, and with it `intern_root`. -/
def internModule (module : ModuleIdentity) : TableM Nat :=
  if module.withinPathLimit then do
    let data ← get
    match data.lookupRoot module with
    | some index => return index
    | none => do
      let root ← internPackage module.package
      internModuleNames module.path ⟨module.package, []⟩ root
  else throw .pathLimit

/-- `intern_child` of a parent that has been validated. -/
def internChildAt (parent : Nat) (kind : DefinitionKind) (name : String) (occurrence : Nat) :
    TableM Nat := do
  let data ← get
  let depth := data.depths.getD parent 0 + 1
  if maxIdentityPathSegments < depth then throw .pathLimit
  else do
    let name ← internSymbol name
    internNode (.child parent kind name occurrence) depth

/-- Part of a method that does not change the table. -/
def checked (check : TableData → Except DefinitionTableError Unit) : TableM Unit := do
  let data ← get
  match check data with
  | .ok () => return ()
  | .error e => throw e

variable (table : Nat)

def internRoot (module : ModuleIdentity) : TableM DefinitionId := do
  let index ← internModule module
  return ⟨table, index⟩

def internChild (parent : DefinitionId) (kind : DefinitionKind) (name : String)
    (occurrence : Nat) : TableM DefinitionId := do
  checked fun data => validateId table data parent
  let index ← internChildAt parent.index kind name occurrence
  return ⟨table, index⟩

def internSegments : List DefinitionPathSegment → DefinitionId → TableM DefinitionId
  | [], id => return id
  | segment :: path, id => do
    let id ← internChild table id segment.kind segment.name segment.occurrence
    internSegments path id

def internPath (path : DefinitionPath) : TableM DefinitionId :=
  if path.withinPathLimit then do
    let root ← internRoot table path.module
    internSegments table path.path root
  else throw .pathLimit

/-! ## Import -/

structure DefinitionRemap where
  source : Nat
  target : Nat
  entries : List (Option DefinitionId)

def DefinitionRemap.map (mapping : DefinitionRemap) (id : DefinitionId) :
    Except DefinitionTableError DefinitionId :=
  if id.table ≠ mapping.source then .error .foreignTable
  else match mapping.entries[id.index]? with
    | none => .error .invalidIndex
    | some none => .error .unmappedDefinition
    | some (some id) => .ok id

/-- The nodes from `index` up that are not mapped yet, the outermost first; the fuel is as for
`moduleLoop`. -/
def pendingLoop (source : TableData) (entries : List (Option DefinitionId)) :
    Nat → Nat → List Nat → List Nat
  | 0, _, pending => pending
  | fuel + 1, index, pending =>
    match entries[index]? with
    | some none =>
      match source.nodes[index]? with
      | some (.child parent _ _ _) => pendingLoop source entries fuel parent (index :: pending)
      | _ => index :: pending
    | _ => pending

/-- One node of the source, whose parent is mapped. -/
def importNode (source : DefinitionTable) (entries : List (Option DefinitionId)) (index : Nat) :
    TableM DefinitionId :=
  if source.id = table then do
    checked fun data => validateId table data ⟨table, index⟩
    return ⟨table, index⟩
  else
    match source.data.nodes[index]? with
    | some (.root module) => internRoot table (source.data.modules.getD module ⟨"", []⟩)
    | some (.child parent kind name occurrence) =>
      match entries[parent]? with
      | some (some parent) =>
        internChild table parent kind (source.data.symbols.getD name "") occurrence
      | _ => throw .unmappedDefinition
    | none => throw .invalidIndex

def importNodes (source : DefinitionTable) : List Nat → List (Option DefinitionId) →
    TableM (List (Option DefinitionId))
  | [], entries => return entries
  | index :: pending, entries => do
    let id ← importNode table source entries index
    importNodes source pending (entries.set index (some id))

def importIds (source : DefinitionTable) : List DefinitionId → List (Option DefinitionId) →
    TableM (List (Option DefinitionId))
  | [], entries => return entries
  | id :: ids, entries => do
    checked fun _ => validateId source.id source.data id
    let entries ← importNodes table source
      (pendingLoop source.data entries (id.index + 1) id.index []) entries
    importIds source ids entries

/-- `import`. -/
def importFrom (source : DefinitionTable) (ids : List DefinitionId) : TableM DefinitionRemap := do
  let entries ← importIds table source ids (List.replicate source.data.nodes.length none)
  return ⟨source.id, table, entries⟩

end Kagari.Identity
