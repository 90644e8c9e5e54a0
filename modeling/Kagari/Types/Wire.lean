import Mathlib.Algebra.Ring.Nat
import Kagari.Types.Shape

/-!
# Flat wire types

`kagari-types/src/ty/wire.rs`: a type is written as the list of its nodes in pre-order, with
references into the file's definition table in place of process-local identities.

- `DefinitionEncoding.reference` and `DefinitionDecoding.resolve`: the two table views
- `WireType.encode`: the work-list encoder, under the shape budget
- `WireType.decode`: the recursive reader, under the depth limit

The encoder's `pending` vector is a stack; here its top is the head of a list.
-/

namespace Kagari

inductive DefinitionTableError where
  | tableIdentityExhausted | indexExhausted | foreignTable | invalidIndex | invalidModuleRoot
  | pathLimit | unmappedDefinition | invalidPortableRecord | portableLimit
deriving DecidableEq

inductive IdentityTransformError where
  | identity (error : DefinitionTableError)
  | type (error : TypeTransformError)
deriving DecidableEq

/-- A reference into the file's definition table, a `u32`. -/
abbrev PortableDefinitionRef := Fin (2 ^ 32)

/-- The references of one table's definitions. `DefinitionTable::encode` gives every selected
index one reference of its own. -/
structure DefinitionEncoding where
  owner : Nat
  references : List (Nat × PortableDefinitionRef)
  indices_nodup : (references.map Prod.fst).Nodup
  references_nodup : (references.map Prod.snd).Nodup

def DefinitionEncoding.reference (encoding : DefinitionEncoding) (id : DefinitionId) :
    Except DefinitionTableError PortableDefinitionRef :=
  if id.table ≠ encoding.owner then .error .foreignTable
  else match encoding.references.lookup id.index with
    | some reference => .ok reference
    | none => .error .unmappedDefinition

/-- The identities of a decoded table. `PortableDefinitionTable::decode` rejects a repeated one. -/
structure DefinitionDecoding where
  references : List DefinitionId
  nodup : references.Nodup

def DefinitionDecoding.resolve (decoding : DefinitionDecoding) (reference : PortableDefinitionRef) :
    Except DefinitionTableError DefinitionId :=
  match decoding.references[reference.val]? with
  | some id => .ok id
  | none => .error .invalidIndex

/-- One record of the flat form, over references `I`. -/
inductive Node (I : Type) where
  | host (id : I)
  | selfType (id : I)
  | parameter (owner : I) (position : Nat)
  | builtin (ty : BuiltinType)
  | tuple (count : Nat)
  | function (count : Nat)
  | iter
  | range (kind : RangeKind)
  | array
  | map (access : CollectionAccess)
  | set (access : CollectionAccess)
  | struct (id : I) (count : Nat)
  | nativeObject (id : I) (count : Nat)
  | enum (id : I) (count : Nat)
  | trait (id : I) (count : Nat) (bindings : List I)
  | projection (memberArguments : Nat) (member owner : I) (arguments : Nat) (bindings : List I)
  | reference (access : ReferenceAccess)
deriving DecidableEq

/-- `len as u32`. -/
def asU32 (n : Nat) : Nat := n % 2 ^ 32

def liftTypeError {α : Type} (result : Except TypeTransformError α) :
    Except IdentityTransformError α :=
  result.mapError .type

def liftTableError {α : Type} (result : Except DefinitionTableError α) :
    Except IdentityTransformError α :=
  result.mapError .identity

theorem liftTypeError_ok {α : Type} {x : Except TypeTransformError α} {a : α} :
    liftTypeError x = .ok a ↔ x = .ok a := by
  cases x <;> simp [liftTypeError, Except.mapError]

theorem liftTableError_ok {α : Type} {x : Except DefinitionTableError α} {a : α} :
    liftTableError x = .ok a ↔ x = .ok a := by
  cases x <;> simp [liftTableError, Except.mapError]

@[simp] theorem liftTypeError_checkCancel : liftTypeError (checkCancel false) = .ok () := rfl

def invalidContract {α : Type} : Except IdentityTransformError α := .error (.type .invalidContract)

/-! ## Encoding -/

section Encode

variable {J : Type} [LinearOrder J] (convert : DefinitionId → Except IdentityTransformError J)

/-- The conversions of all keys, in key order; the first error stops them. -/
def convertBindings : List (DefinitionId × Ty) → Except IdentityTransformError (List (J × Ty))
  | [] => .ok []
  | (id, ty) :: bindings => do
    let reference ← convert id
    let rest ← convertBindings bindings
    return (reference, ty) :: rest

/-- `windows(2).any(..)`: two neighbours with one reference. -/
def adjacentEqual : List (J × Ty) → Bool
  | left :: right :: rest => left.1 == right.1 || adjacentEqual (right :: rest)
  | _ => false

def orderedBindings (bindings : List (DefinitionId × Ty)) :
    Except IdentityTransformError (List (J × Ty)) := do
  let result ← convertBindings convert bindings
  let result := result.insertionSort (fun left right => left.1 ≤ right.1)
  if adjacentEqual result then invalidContract
  else return result

/-- The node of a type and its children in the order in which they are popped. -/
def wireNode : Ty → Except IdentityTransformError (Node J × List Ty)
  | .reference target access => return (.reference access, [target])
  | .host id => return (.host (← convert id), [])
  | .selfType id => return (.selfType (← convert id), [])
  | .parameter owner position => return (.parameter (← convert owner) position, [])
  | .builtin ty => return (.builtin ty, [])
  | .tuple elements => return (.tuple (asU32 elements.length), elements)
  | .function params result => return (.function (asU32 params.length), params ++ [result])
  | .range element kind => return (.range kind, [element])
  | .iter element => return (.iter, [element])
  | .array element => return (.array, [element])
  | .map key value access => return (.map access, [key, value])
  | .set element access => return (.set access, [element])
  | .nativeObject nominal => do
    let id ← convert nominal.declaration
    return (.nativeObject id (asU32 nominal.arguments.length), nominal.arguments)
  | .struct nominal => do
    let id ← convert nominal.declaration
    return (.struct id (asU32 nominal.arguments.length), nominal.arguments)
  | .enum nominal => do
    let id ← convert nominal.declaration
    return (.enum id (asU32 nominal.arguments.length), nominal.arguments)
  | .trait nominal => do
    let bindings ← orderedBindings convert nominal.associatedTypes
    let id ← convert nominal.declaration
    return (.trait id (asU32 nominal.arguments.length) (bindings.map Prod.fst),
      nominal.arguments ++ bindings.map Prod.snd)
  | .projection arguments receiver interface member => do
    let bindings ← orderedBindings convert interface.associatedTypes
    let member ← convert member
    let owner ← convert interface.declaration
    return (.projection (asU32 arguments.length) member owner (asU32 interface.arguments.length)
        (bindings.map Prod.fst),
      receiver :: (interface.arguments ++ bindings.map Prod.snd ++ arguments))

/-- The encoder's loop. `fuel` bounds the nodes still allowed: with none left the budget rejects
the next type, so a stack that is not empty is over the limit. -/
def wireLoop (cancel : CancellationToken) : Nat → List (Ty × Nat) → List (Node J) → Nat →
    Except IdentityTransformError (List (Node J))
  | _, [], nodes, _ => .ok nodes
  | 0, _ :: _, _, _ => do
    liftTypeError (checkCancel cancel)
    .error (.type .limitExceeded)
  | fuel + 1, (ty, depth) :: pending, nodes, visited => do
    liftTypeError (checkCancel cancel)
    let visited ← liftTypeError (ShapeBudget.enter visited ty depth)
    let (node, children) ← wireNode convert ty
    let pending := children.map (fun ty => (ty, depth + 1)) ++ pending
    let nodes := nodes ++ [node]
    if nodes.length + pending.length > maxTypeNodes then .error (.type .limitExceeded)
    else wireLoop cancel fuel pending nodes visited

def wireNodesWith (cancel : CancellationToken) (ty : Ty) :
    Except IdentityTransformError (List (Node J)) :=
  wireLoop convert cancel maxTypeNodes [(ty, 1)] [] 0

end Encode

/-! ## Decoding -/

section Decode

abbrev WireNode := Node PortableDefinitionRef

/-- Read `count` types one after the other. -/
def readTypes (read : List WireNode → Except IdentityTransformError (Ty × List WireNode)) :
    Nat → List WireNode → Except IdentityTransformError (List Ty × List WireNode)
  | 0, nodes => .ok ([], nodes)
  | count + 1, nodes => do
    let (ty, nodes) ← read nodes
    let (types, nodes) ← readTypes read count nodes
    return (ty :: types, nodes)

/-- `children`: more children than nodes left are rejected before any is read. -/
def children (read : List WireNode → Except IdentityTransformError (Ty × List WireNode))
    (count : Nat) (nodes : List WireNode) :
    Except IdentityTransformError (List Ty × List WireNode) :=
  if count > nodes.length then invalidContract
  else readTypes read count nodes

/-- The binding loop of traits and projections: references strictly increase, and no two resolve
to one identity. -/
def readBindings (read : List WireNode → Except IdentityTransformError (Ty × List WireNode))
    (convert : PortableDefinitionRef → Except IdentityTransformError DefinitionId) :
    Option PortableDefinitionRef → List PortableDefinitionRef → List (DefinitionId × Ty) →
      List WireNode → Except IdentityTransformError (List (DefinitionId × Ty) × List WireNode)
  | _, [], associatedTypes, nodes => .ok (associatedTypes, nodes)
  | previous, reference :: bindings, associatedTypes, nodes =>
    if previous.any (fun previous => decide (previous ≥ reference)) then invalidContract
    else do
      let id ← convert reference
      let (ty, nodes) ← read nodes
      if Lib.SortedMap.contains id associatedTypes then invalidContract
      else
        readBindings read convert (some reference) bindings
          (Lib.SortedMap.insert id ty associatedTypes) nodes

/-- `build`, with the nodes it leaves. `fuel` is the recursion depth; it starts above the depth
limit, which stops the recursion first. -/
def build (convert : PortableDefinitionRef → Except IdentityTransformError DefinitionId)
    (cancel : CancellationToken) : Nat → Nat → List WireNode →
      Except IdentityTransformError (Ty × List WireNode)
  | 0, _, _ => .error (.type .limitExceeded)
  | fuel + 1, depth, nodes => do
    let read := build convert cancel fuel (depth + 1)
    liftTypeError (checkCancel cancel)
    if depth > maxTypeDepth then .error (.type .limitExceeded)
    else match nodes with
    | [] => invalidContract
    | .reference access :: nodes => do
      let (target, nodes) ← read nodes
      return (.reference target access, nodes)
    | .host id :: nodes => return (.host (← convert id), nodes)
    | .selfType id :: nodes => return (.selfType (← convert id), nodes)
    | .parameter owner position :: nodes => return (.parameter (← convert owner) position, nodes)
    | .builtin ty :: nodes => return (.builtin ty, nodes)
    | .tuple count :: nodes => do
      let (elements, nodes) ← children read count nodes
      return (.tuple elements, nodes)
    | .function count :: nodes => do
      let (params, nodes) ← children read count nodes
      let (result, nodes) ← read nodes
      return (.function params result, nodes)
    | .range kind :: nodes => do
      let (element, nodes) ← read nodes
      return (.range element kind, nodes)
    | .iter :: nodes => do
      let (element, nodes) ← read nodes
      return (.iter element, nodes)
    | .array :: nodes => do
      let (element, nodes) ← read nodes
      return (.array element, nodes)
    | .map access :: nodes => do
      let (key, nodes) ← read nodes
      let (value, nodes) ← read nodes
      return (.map key value access, nodes)
    | .set access :: nodes => do
      let (element, nodes) ← read nodes
      return (.set element access, nodes)
    | .struct id count :: nodes => do
      let declaration ← convert id
      let (arguments, nodes) ← children read count nodes
      return (.struct ⟨declaration, arguments, []⟩, nodes)
    | .nativeObject id count :: nodes => do
      let declaration ← convert id
      let (arguments, nodes) ← children read count nodes
      return (.nativeObject ⟨declaration, arguments, []⟩, nodes)
    | .enum id count :: nodes => do
      let declaration ← convert id
      let (arguments, nodes) ← children read count nodes
      return (.enum ⟨declaration, arguments, []⟩, nodes)
    | .trait id count bindings :: nodes => do
      let (arguments, nodes) ← children read count nodes
      let (associatedTypes, nodes) ← readBindings read convert none bindings [] nodes
      let declaration ← convert id
      return (.trait ⟨declaration, arguments, associatedTypes⟩, nodes)
    | .projection memberArguments member owner arguments bindings :: nodes => do
      let (receiver, nodes) ← read nodes
      let (interfaceArguments, nodes) ← children read arguments nodes
      let (associatedTypes, nodes) ← readBindings read convert none bindings [] nodes
      let (arguments, nodes) ← children read memberArguments nodes
      let declaration ← convert owner
      let member ← convert member
      return (.projection arguments receiver ⟨declaration, interfaceArguments, associatedTypes⟩
        member, nodes)

end Decode

/-- The nodes of a type. Deserialization admits at most `MAX_NESTED_RECORDS` of them. -/
@[ext] structure WireType where
  nodes : List WireNode
  bounded : nodes.length ≤ maxTypeNodes

variable {cancel : CancellationToken}

/-- The encoder never writes more nodes than a wire type may have. -/
theorem wireLoop_bounded {J : Type} [LinearOrder J]
    {convert : DefinitionId → Except IdentityTransformError J} {fuel visited : Nat}
    {pending : List (Ty × Nat)} {acc out : List (Node J)}
    (h : wireLoop convert cancel fuel pending acc visited = .ok out)
    (hacc : acc.length ≤ maxTypeNodes) : out.length ≤ maxTypeNodes := by
  induction fuel generalizing pending acc visited with
  | zero =>
    cases pending with
    | nil =>
      simp only [wireLoop, Except.ok.injEq] at h
      rwa [← h]
    | cons p pending => simp [wireLoop, Lib.bind_ok] at h
  | succ fuel ih =>
    cases pending with
    | nil =>
      simp only [wireLoop, Except.ok.injEq] at h
      rwa [← h]
    | cons p pending =>
      simp only [wireLoop, Lib.bind_ok] at h
      obtain ⟨_, -, visited', -, ⟨node, kids⟩, -, h⟩ := h
      split at h
      · cases h
      · refine ih h ?_
        simp only [List.length_append] at *
        omega

namespace WireType

def encode (ty : Ty) (encoding : DefinitionEncoding) (cancel : CancellationToken) :
    Except IdentityTransformError WireType :=
  match h : wireNodesWith (fun id => liftTableError (encoding.reference id)) cancel ty with
  | .ok nodes => .ok ⟨nodes, wireLoop_bounded h (Nat.zero_le _)⟩
  | .error error => .error error

def decode (wire : WireType) (decoding : DefinitionDecoding) (cancel : CancellationToken) :
    Except IdentityTransformError Ty := do
  let (ty, nodes) ← build (fun reference => liftTableError (decoding.resolve reference)) cancel
    (maxTypeDepth + 1) 1 wire.nodes
  if nodes.isEmpty then return ty
  else invalidContract

theorem encode_ok {ty : Ty} {encoding : DefinitionEncoding}
    {wire : WireType} : encode ty encoding cancel = .ok wire ↔
      wireNodesWith (fun id => liftTableError (encoding.reference id)) cancel ty = .ok wire.nodes := by
  unfold encode
  split
  · rename_i nodes h
    simp only [h, Except.ok.injEq, WireType.ext_iff]
  · rename_i error h
    simp [h]

end WireType

end Kagari
