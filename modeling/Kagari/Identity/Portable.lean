import Mathlib.Data.String.Basic
import Kagari.Identity.Builder

/-!
# Portable identity tables

`kagari-common/src/identity/table/wire.rs`: the requested definitions and their ancestors, ordered by
path, with their own lists of modules and names.

An iteration over a `HashSet` goes in an order that is not specified: `encode` takes it as a
parameter, any permutation. A `BTreeSet` is the increasing list of its elements; the binary searches
find the only position of an element there. The `expect`s of `encode` are `none` of `Option`.
-/

namespace Kagari.Identity

open Lib Stateful TableData

/-! ## The order of paths -/

namespace DefinitionPath

def segmentKey (segment : DefinitionPathSegment) : Nat ×ₗ String ×ₗ Nat :=
  toLex (segment.kind.ctorIdx, toLex (segment.name, segment.occurrence))

/-- The derived order: the package, the module path, then the segments. -/
def key (path : DefinitionPath) : (String ×ₗ List String) ×ₗ List (Nat ×ₗ String ×ₗ Nat) :=
  toLex (toLex (path.module.package, path.module.path), path.path.map segmentKey)

theorem segmentKey_injective : Function.Injective segmentKey := by
  rintro ⟨kind, name, occurrence⟩ ⟨kind', name', occurrence'⟩ h
  obtain ⟨hkind, hrest⟩ := Prod.mk.inj (toLex.injective h)
  cases toLex.injective hrest
  have : kind = kind' := by
    cases kind <;> cases kind' <;> first | rfl | cases hkind
  rw [this]

theorem key_injective : Function.Injective key := by
  rintro ⟨⟨package, path⟩, segments⟩ ⟨⟨package', path'⟩, segments'⟩ h
  obtain ⟨hmod, hsegs⟩ := Prod.mk.inj (toLex.injective h)
  cases toLex.injective hmod
  obtain rfl : segments = segments' := segmentKey_injective.list_map hsegs
  rfl

instance : LinearOrder DefinitionPath := LinearOrder.lift' key key_injective

/-- A parent stands before its children. -/
theorem lt_below (path : DefinitionPath) (segment : DefinitionPathSegment) :
    path < path.below segment := by
  show path.key < (path.below segment).key
  refine Prod.Lex.toLex_lt_toLex.mpr (.inr ⟨rfl, ?_⟩)
  show path.path.map segmentKey < (path.path ++ [segment]).map segmentKey
  rw [List.map_append]
  have hlex := List.Lex.append_left (· < ·) (List.Lex.nil (a := segmentKey segment) (l := []))
    (path.path.map segmentKey)
  rw [List.append_nil] at hlex
  exact hlex

end DefinitionPath

namespace ModuleIdentity

def key (m : ModuleIdentity) : String ×ₗ List String := toLex (m.package, m.path)

theorem key_injective : Function.Injective key := by
  rintro ⟨package, path⟩ ⟨package', path'⟩ h
  cases toLex.injective h
  rfl

instance : LinearOrder ModuleIdentity := LinearOrder.lift' key key_injective

end ModuleIdentity

/-! ## Encoding -/

inductive PortableNode where
  | root (module : Nat)
  | child (parent : Nat) (kind : DefinitionKind) (name : Nat) (occurrence : Nat)
deriving DecidableEq

structure PortableDefinitionTable where
  modules : List ModuleIdentity
  symbols : List String
  nodes : List PortableNode
deriving DecidableEq

/-- `DefinitionEncoding`: the table, its owner, and the reference of each encoded index. -/
structure Encoding where
  table : PortableDefinitionTable
  owner : Nat
  references : List (Nat × Nat)

def Encoding.reference (encoding : Encoding) (id : DefinitionId) : Except DefinitionTableError Nat :=
  if id.table ≠ encoding.owner then .error .foreignTable
  else match encoding.references.lookup id.index with
    | some reference => .ok reference
    | none => .error .unmappedDefinition

/-- A node and its ancestors, up to one that is there already. -/
def requiredLoop (data : TableData) : Nat → Nat → List Nat → List Nat
  | 0, _, required => required
  | fuel + 1, index, required =>
    if index ∈ required then required
    else
      match data.nodes[index]? with
      | some (.child parent _ _ _) => requiredLoop data fuel parent (required ++ [index])
      | _ => required ++ [index]

def requiredIds (table : DefinitionTable) : List DefinitionId → List Nat →
    Except DefinitionTableError (List Nat)
  | [], required => .ok required
  | id :: ids, required => do
    validateId table.id table.data id
    requiredIds table ids (requiredLoop table.data (id.index + 1) id.index required)

section Encode

variable (data : TableData) (modules : List ModuleIdentity) (symbols : List String)

def encodeNode (references : List (Nat × Nat)) (path : DefinitionPath) (index : Nat) :
    Option PortableNode :=
  match data.nodes[index]? with
  | some (.root _) => (modules.idxOf? path.module).map .root
  | some (.child parent kind name occurrence) => do
    let parent ← references.lookup parent
    let name ← data.symbols[name]?
    let name ← symbols.idxOf? name
    return .child parent kind name occurrence
  | none => none

def encodeNodes : List (DefinitionPath × Nat) → List PortableNode → List (Nat × Nat) →
    Option (List PortableNode × List (Nat × Nat))
  | [], nodes, references => some (nodes, references)
  | (path, index) :: paths, nodes, references => do
    let node ← encodeNode data modules symbols references path index
    encodeNodes paths (nodes ++ [node]) (references ++ [(index, nodes.length)])

end Encode

/-- The paths of the required nodes, in order. -/
def sortedPaths (data : TableData) (required : List Nat) : Option (List (DefinitionPath × Nat)) := do
  let paths ← required.mapM fun index => (data.toPath index).map fun path => (path, index)
  return paths.insertionSort fun left right => left.1 ≤ right.1

/-- The names that the last segments have. -/
def lastNames (paths : List DefinitionPath) : List String :=
  paths.filterMap fun path => (path.path.getLast?).map (·.name)

/-- `DefinitionTable::encode`. -/
def DefinitionTable.encode (order : List Nat → List Nat) (table : DefinitionTable)
    (ids : List DefinitionId) : ExceptT DefinitionTableError Option Encoding := do
  let required ← ExceptT.mk (some (requiredIds table ids []))
  if maxPortableIdentityRecords < required.length then throw .portableLimit
  else do
    let paths ← sortedPaths table.data (order required)
    let modules := SortedSet.ofList (paths.map (·.1.module))
    let symbols := SortedSet.ofList (lastNames (paths.map (·.1)))
    if maxPortableIdentityRecords < modules.length || maxPortableIdentityRecords < symbols.length then
      throw .portableLimit
    else do
      let (nodes, references) ← encodeNodes table.data modules symbols paths [] []
      return ⟨⟨modules, symbols, nodes⟩, table.id, references⟩

/-! ## Decoding -/

/-- `DefinitionDecoding`. -/
structure Decoding where
  table : DefinitionTable
  references : List DefinitionId

def Decoding.resolve (decoding : Decoding) (reference : Nat) :
    Except DefinitionTableError DefinitionId :=
  match decoding.references[reference]? with
  | some id => .ok id
  | none => .error .invalidIndex

namespace PortableDefinitionTable

variable (portable : PortableDefinitionTable)

def decodeNode (table : Nat) (references : List DefinitionId) : PortableNode → TableM DefinitionId
  | .root module =>
    match portable.modules[module]? with
    | some module => internRoot table module
    | none => throw .invalidPortableRecord
  | .child parent kind name occurrence =>
    match references[parent]?, portable.symbols[name]? with
    | some parent, some name => internChild table parent kind name occurrence
    | _, _ => throw .invalidPortableRecord

def decodeNodes (table : Nat) : List PortableNode → List DefinitionId → TableM (List DefinitionId)
  | [], references => return references
  | node :: nodes, references => do
    let id ← portable.decodeNode table references node
    if id ∈ references then throw .invalidPortableRecord
    else decodeNodes table nodes (references ++ [id])

/-- `PortableDefinitionTable::decode`, of a process whose next table identity is `next`. -/
def decode (next : Nat) : Except DefinitionTableError Decoding :=
  if maxPortableIdentityRecords < portable.modules.length ||
      maxPortableIdentityRecords < portable.symbols.length ||
      maxPortableIdentityRecords < portable.nodes.length then .error .portableLimit
  else if portable.modules.any (fun module => !module.withinPathLimit) || ¬ portable.modules.Nodup then
    .error .invalidPortableRecord
  else if ¬ portable.symbols.Nodup then .error .invalidPortableRecord
  else if ¬ next + 1 < 2 ^ 32 then .error .tableIdentityExhausted
  else
    match exec (portable.decodeNodes next portable.nodes []) .empty with
    | (.ok references, data) => .ok ⟨⟨next, data⟩, references⟩
    | (.error e, _) => .error e

end PortableDefinitionTable

end Kagari.Identity
