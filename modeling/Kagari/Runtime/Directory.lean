import Kagari.Lib.Dense
import Kagari.Runtime.Fields

/-!
# The object directory

- `ObjectStorage`: stable identities point into dense stores of concrete payload kinds, and the fields of
  structs into one byte arena (`gc/directory.rs`)
- `InterfaceStore`: the snapshots that interface wrappers locate (`execution_metadata/interfaces.rs`)
- `GcHeap`: allocation, reads and writes through an identity (`gc.rs`), the extraction of a native payload
  (`gc/native/take.rs`) and the sweep of a collection (`gc/collection.rs`)

A payload that only its kind's code reads is a value of `P`. Capacities, the owners of candidate
initialisation and the destruction of retired payloads are left out. `reserve` answers the reservations
of one allocation; a resource limit is a reservation that fails.
-/

namespace Kagari.Runtime

open Lib

/-- The kinds whose payload is one value that the directory does not look into. -/
inductive PlainKind where
  | string | tuple | range | hostRoot | hostPath | ephemeral | native | enum | closure
deriving DecidableEq

inductive PayloadKind where
  | plain (kind : PlainKind)
  | struct
  | interface
  | cell
deriving DecidableEq

structure PayloadLocation where
  kind : PayloadKind
  index : Nat
deriving DecidableEq

structure ObjectSlot where
  generation : BitVec 32
  location : Option PayloadLocation

/-- The fields of a struct are packed in the arena, from `offset` on. -/
structure StructRecord where
  description : StructStorageLayout
  offset : Nat

/-- What a store of a kind has in its rows; interface wrappers have none. -/
def Row (P : PlainKind → Type) : PayloadKind → Type
  | .plain kind => P kind
  | .struct => StructRecord
  | .interface => Empty
  | .cell => ValueType × HeapValue

structure ObjectStorage (P : PlainKind → Type) where
  slots : List ObjectSlot
  stores : (kind : PayloadKind) → List (Entry (Row P kind))
  structBytes : List Byte
  interfaceDirectories : List Nat

/-! ## Interface snapshots -/

structure InterfaceSnapshotId where
  slot : Nat
  generation : Nat
deriving DecidableEq

structure InterfaceSlot (D : Type) where
  generation : Nat
  interface : Option D

structure InterfaceStore (D : Type) where
  slots : List (InterfaceSlot D)
  free : List Nat

namespace InterfaceStore

variable {D : Type} (store : InterfaceStore D)

/-- `None` if the table cannot grow. -/
def insert (reserve : Bool) (interface : D) : Option (InterfaceStore D × InterfaceSnapshotId) :=
  match store.free with
  | slot :: free =>
    match store.slots[slot]? with
    | none => none
    | some record => some (⟨store.slots.set slot { record with interface := some interface }, free⟩,
        ⟨slot, record.generation⟩)
  | [] =>
    if !reserve then none
    else some (⟨store.slots ++ [⟨0, some interface⟩], []⟩, ⟨store.slots.length, 0⟩)

def get (id : InterfaceSnapshotId) : Option D := do
  let slot ← store.slots[id.slot]?
  if slot.generation = id.generation then slot.interface else none

def directoryBinding (index : Nat) : Option InterfaceSnapshotId := do
  let slot ← store.slots[index]?
  let _ ← slot.interface
  return ⟨index, slot.generation⟩

def generationLimit : Nat := 2 ^ 64

/-- A slot of the sweep: a snapshot that is not marked goes, and its generation advances. -/
def detachSlot (live : InterfaceSnapshotId → Bool) (index : Nat) (slot : InterfaceSlot D) : InterfaceSlot D :=
  if live ⟨index, slot.generation⟩ || slot.interface.isNone then slot
  else ⟨if slot.generation + 1 < generationLimit then slot.generation + 1 else slot.generation, none⟩

/-- The slot is vacated by the sweep and can be used again. -/
def frees (live : InterfaceSnapshotId → Bool) (index : Nat) (slot : InterfaceSlot D) : Bool :=
  !live ⟨index, slot.generation⟩ && slot.interface.isSome && slot.generation + 1 < generationLimit

def detach (live : InterfaceSnapshotId → Bool) : InterfaceStore D :=
  ⟨store.slots.mapIdx (detachSlot live),
    ((store.slots.zipIdx.filter fun (slot, index) => frees live index slot).map Prod.snd).reverse ++ store.free⟩

end InterfaceStore

/-! ## Storage -/

/-- Values that the allocation owner has admitted: they encode in the fields of the description. -/
structure StructInitializer where
  description : StructStorageLayout
  values : List HeapValue
  view : StructView
  encodes : StructView.setAll ⟨description, List.replicate description.size 0⟩ values 0 = some view

/-- The values of the fields are admitted; the heap decides about managed ones. -/
def admitsFields (admitted : Nat → HeapValue → Bool) (description : StructStorageLayout) (values : List HeapValue)
    : Bool :=
  (description.fields.zip values).zipIdx.all fun ((field, value), slot) =>
    match field with
    | .scalar _ encoding => value.hasRepresentation encoding.representation &&
        value.encode.any fun bits => admitsBits encoding.representation (some encoding.ty) bits
    | .managed _ => admitted slot value

/-- `prepare_struct_storage`, of a description. -/
def prepareStructStorage (admitted : Nat → HeapValue → Bool) (description : StructStorageLayout)
    (values : List HeapValue) : Option StructInitializer :=
  if values.length ≠ description.fields.length || !admitsFields admitted description values then none
  else match h : StructView.setAll ⟨description, List.replicate description.size 0⟩ values 0 with
    | some view => some ⟨description, values, view, h⟩
    | none => none

/-- An object that is not yet published. -/
inductive OwnedObject (P : PlainKind → Type) where
  | plain (kind : PlainKind) (payload : P kind)
  | struct (storage : StructInitializer)
  | interface (snapshot : InterfaceSnapshotId)
  | cell (ty : ValueType) (value : HeapValue)

namespace ObjectStorage

variable {P : PlainKind → Type} (s : ObjectStorage P)

def empty : ObjectStorage P := ⟨[], fun _ => [], [], []⟩

/-- A row at the end of its store. -/
def push (kind : PayloadKind) (directory : Nat) (payload : Row P kind) : ObjectStorage P × PayloadLocation :=
  ({ s with stores := Function.update s.stores kind (s.stores kind ++ [⟨directory, payload⟩]) },
    ⟨kind, (s.stores kind).length⟩)

def insert (reserve : Nat → Bool) (directory : Nat) : OwnedObject P → Option (ObjectStorage P × PayloadLocation)
  | .plain kind payload => if !reserve 0 then none else some (s.push (.plain kind) directory payload)
  | .struct storage =>
    if !reserve 0 || !reserve 1 then none
    else
      let offset := s.structBytes.length
      let grown := { s with structBytes := s.structBytes ++ storage.view.bytes }
      some (grown.push .struct directory ⟨storage.description, offset⟩)
  | .interface snapshot =>
    if !reserve 0 then none
    else some ({ s with interfaceDirectories := s.interfaceDirectories ++ [directory] }, ⟨.interface, snapshot.slot⟩)
  | .cell ty value => if !reserve 0 then none else some (s.push .cell directory (ty, value))

/-- The view of a record's bytes. -/
def viewOf (bytes : List Byte) (record : StructRecord) : StructView :=
  ⟨record.description, (bytes.drop record.offset).take record.description.size⟩

/-- `structure`, of a row. -/
def structureAt (index : Nat) : Option StructView := do
  return viewOf s.structBytes (← (s.stores .struct)[index]?).payload

def locationAt (index : Nat) : Option PayloadLocation := do (← s.slots[index]?).location

/-- The index of a location in place. -/
def relocate (slots : List ObjectSlot) (directory index : Nat) : List ObjectSlot :=
  slots.modify directory fun slot => { slot with location := slot.location.map ({ · with index }) }

def vacate (slots : List ObjectSlot) (directory : Nat) : List ObjectSlot :=
  slots.modify directory ({ · with location := none })

/-- `remove`: the last row takes the place of the removed one. -/
def remove (kind : PayloadKind) (index : Nat) : ObjectStorage P :=
  let store := Dense.swapRemove (s.stores kind) index
  { s with
    stores := Function.update s.stores kind store
    slots := match store[index]? with
      | none => s.slots
      | some moved => relocate s.slots moved.directory index }

/-- `detach_native`. -/
def detachNative (directory : Nat) : Option (ObjectStorage P) := do
  let location ← s.locationAt directory
  if location.kind ≠ .plain .native then none
  else some (remove { s with slots := vacate s.slots directory } (.plain .native) location.index)

/-! ### Sweeping -/

/-- Occupied identities, store by store. -/
def occupiedDirectories : List Nat :=
  let of (kind : PayloadKind) := (s.stores kind).map Entry.directory
  of (.plain .string) ++ of (.plain .tuple) ++ of (.plain .range) ++ of (.plain .hostRoot)
    ++ of (.plain .hostPath) ++ of (.plain .ephemeral) ++ of (.plain .native) ++ of (.plain .enum)
    ++ of .struct ++ s.interfaceDirectories ++ of (.plain .closure) ++ of .cell

abbrev DetachedCounts := PayloadKind → Nat

/-- `mark_detached`. -/
def markDetached (directory : Nat) (counts : DetachedCounts) : Option (ObjectStorage P × DetachedCounts) := do
  let location ← s.locationAt directory
  return ({ s with slots := vacate s.slots directory },
    Function.update counts location.kind (counts location.kind + 1))

/-- `extract`: the rows of vacated slots go, and the rest move up. -/
def extract (kind : PayloadKind) (count : Nat) : ObjectStorage P :=
  if count = 0 then s
  else if count = (s.stores kind).length then { s with stores := Function.update s.stores kind [] }
  else
    let store := (s.stores kind).filter fun entry => (s.locationAt entry.directory).isSome
    { s with
      stores := Function.update s.stores kind store
      slots := store.zipIdx.foldl (fun slots (entry, index) => relocate slots entry.directory index) s.slots }

/-- `copy_within`. -/
def copyWithin (bytes : List Byte) (source length target : Nat) : List Byte :=
  overwrite bytes target ((bytes.drop source).take length)

/-- The bytes of the records move down, one record after another. -/
def compact : List (Entry StructRecord) → Nat → List Byte → List (Entry StructRecord) × Nat × List Byte
  | [], offset, bytes => ([], offset, bytes)
  | entry :: entries, offset, bytes =>
    let record := entry.payload
    let size := record.description.size
    let rest := compact entries (offset + size) (copyWithin bytes record.offset size offset)
    ({ entry with payload := { record with offset } } :: rest.1, rest.2)

def extractStructs (count : Nat) : ObjectStorage P :=
  if count = 0 then s
  else
    let s := s.extract .struct count
    if (s.stores .struct).isEmpty then { s with structBytes := [] }
    else
      let (store, offset, bytes) := compact (s.stores .struct) 0 s.structBytes
      { s with stores := Function.update s.stores .struct store, structBytes := bytes.take offset }

def extractInterfaces (count : Nat) : ObjectStorage P :=
  if count = 0 then s
  else { s with interfaceDirectories := s.interfaceDirectories.filter fun index => (s.locationAt index).isSome }

/-- `detach_marked`. -/
def detachMarked (counts : DetachedCounts) : ObjectStorage P :=
  let plain (s : ObjectStorage P) (kind : PlainKind) := s.extract (.plain kind) (counts (.plain kind))
  let s := s.extractInterfaces (counts .interface)
  let s := [.string, .tuple, .range, .hostRoot, .hostPath, .ephemeral, .native, .enum].foldl plain s
  let s := s.extractStructs (counts .struct)
  let s := plain s .closure
  s.extract .cell (counts .cell)

end ObjectStorage

/-! ## The heap -/

structure GcHeap (P : PlainKind → Type) (D : Type) where
  owner : BitVec 32
  objects : ObjectStorage P
  /-- The slots to use again, the last one pushed first. -/
  free : List Nat
  interfaces : InterfaceStore D

/-- A payload as an access shows it. -/
inductive Payload (P : PlainKind → Type) where
  | plain (kind : PlainKind) (payload : P kind)
  | struct (view : StructView)
  | interface (snapshot : InterfaceSnapshotId)
  | cell (ty : ValueType) (value : HeapValue)

namespace GcHeap

open ObjectStorage

variable {P : PlainKind → Type} {D : Type} (heap : GcHeap P D)

def empty (owner : BitVec 32) : GcHeap P D := ⟨owner, .empty, [], ⟨[], []⟩⟩

def slotLimit : Nat := 2 ^ 32

/-- `alloc_object`, of an object that the resource limits admit. -/
def allocObject (reserve : Nat → Bool) (object : OwnedObject P) : Option (GcHeap P D × HeapObjectId) := do
  let slots := heap.objects.slots
  let index := heap.free.head?.getD slots.length
  if slotLimit ≤ index then none
  else if index = slots.length && !reserve 2 then none
  else
    let (objects, location) ← heap.objects.insert reserve index object
    if index = slots.length then
      return ({ heap with objects := { objects with slots := slots ++ [⟨0, some location⟩] } },
        ⟨heap.owner, BitVec.ofNat 32 index, 0⟩)
    else
      let slot ← slots[index]?
      return ({ heap with
          objects := { objects with slots := slots.set index { slot with location := some location } }
          free := heap.free.tail },
        ⟨heap.owner, BitVec.ofNat 32 index, slot.generation⟩)

def objectLocation (id : HeapObjectId) : Option PayloadLocation :=
  if id.owner ≠ heap.owner then none
  else do
    let slot ← heap.objects.slots[id.index]?
    if slot.generation = id.generation then slot.location else none

def get (location : PayloadLocation) : Option (Payload P) :=
  match location.kind with
  | .plain kind => do return .plain kind (← (heap.objects.stores (.plain kind))[location.index]?).payload
  | .struct => (heap.objects.structureAt location.index).map .struct
  | .interface => (heap.interfaces.directoryBinding location.index).map .interface
  | .cell => do
    let entry ← (heap.objects.stores .cell)[location.index]?
    return .cell entry.payload.1 entry.payload.2

/-- `alloc_interface`: the snapshot is live, and a wrapper can locate it. -/
def allocInterface (reserve : Nat → Bool) (snapshot : InterfaceSnapshotId) : Option (GcHeap P D × HeapObjectId) := do
  let _ ← heap.interfaces.get snapshot
  if slotLimit ≤ snapshot.slot then none else heap.allocObject reserve (.interface snapshot)

/-- `object_ref`. -/
def read (id : HeapObjectId) : Option (Payload P) := do heap.get (← heap.objectLocation id)

def editRow (kind : PayloadKind) (index : Nat) (edit : Row P kind → Row P kind) : GcHeap P D :=
  { heap with objects := { heap.objects with
    stores := Function.update heap.objects.stores kind
      ((heap.objects.stores kind).modify index fun entry => { entry with payload := edit entry.payload }) } }

/-- An edit of a payload in place, such as a native object's. -/
def editPlain (id : HeapObjectId) (kind : PlainKind) (edit : P kind → P kind) : Option (GcHeap P D) := do
  let location ← heap.objectLocation id
  if location.kind ≠ .plain kind then none
  else return heap.editRow (.plain kind) location.index edit

/-- `cell_set`, of a value the cell's representation has. -/
def cellSet (id : HeapObjectId) (ty : ValueType) (value : HeapValue) : Option (GcHeap P D) := do
  if !value.hasRepresentation ty then none
  else
    let location ← heap.objectLocation id
    if location.kind ≠ .cell then none
    else
      let entry ← (heap.objects.stores .cell)[location.index]?
      if entry.payload.1 ≠ ty then none
      else return heap.editRow .cell location.index fun _ => (ty, value)

/-- `with_struct_mut`: the edit of the bytes of one struct. -/
def editStruct (id : HeapObjectId) (edit : StructView → Option StructView) : Option (GcHeap P D) := do
  let location ← heap.objectLocation id
  if location.kind ≠ .struct then none
  else
    let entry ← (heap.objects.stores .struct)[location.index]?
    let view ← edit (← heap.objects.structureAt location.index)
    return { heap with objects := { heap.objects with
      structBytes := overwrite heap.objects.structBytes entry.payload.offset view.bytes } }

def structSetSlot (id : HeapObjectId) (slot : Nat) (value : HeapValue) : Option (GcHeap P D) :=
  heap.editStruct id fun view => view.set slot value

def setStructScalar (id : HeapObjectId) (slot : Nat) (ty : BuiltinType) (bits : BitVec 64) : Option (GcHeap P D) :=
  heap.editStruct id fun view => view.setScalar slot ty bits

/-- The next identity of a vacated slot, unless its generations are used up. -/
def advance (directory : Nat) : GcHeap P D :=
  match heap.objects.slots[directory]? with
  | none => heap
  | some slot =>
    if slot.generation = BitVec.allOnes 32 then heap
    else { heap with
      objects := { heap.objects with
        slots := heap.objects.slots.set directory { slot with generation := slot.generation + 1 } }
      free := directory :: heap.free }

/-- `take_native`, of a payload that permits extraction. -/
def takeNative (id : HeapObjectId) : Option (GcHeap P D) := do
  let location ← heap.objectLocation id
  if location.kind ≠ .plain .native then none
  else
    let objects ← heap.objects.detachNative id.index
    return advance { heap with objects } id.index

def identityAt (index : Nat) : HeapObjectId :=
  ⟨heap.owner, BitVec.ofNat 32 index, ((heap.objects.slots[index]?).map ObjectSlot.generation).getD 0⟩

/-- One dead object of the sweep. -/
def retire (swept : GcHeap P D × DetachedCounts) (directory : Nat) : GcHeap P D × DetachedCounts :=
  match swept.1.objects.markDetached directory swept.2 with
  | none => swept
  | some (objects, counts) => (advance { swept.1 with objects } directory, counts)

def deadDirectories (live : HeapObjectId → Bool) : List Nat :=
  heap.objects.occupiedDirectories.filter fun index => !live (heap.identityAt index)

/-- The snapshots that the live wrappers locate. -/
def locatedSnapshots (live : HeapObjectId → Bool) : List InterfaceSnapshotId :=
  (heap.objects.interfaceDirectories.filter fun index => live (heap.identityAt index)).filterMap fun index => do
    heap.interfaces.directoryBinding (← heap.objects.locationAt index).index

/-- The sweep of `collect_inner`, over what was marked: objects, and the interface snapshots that live
wrappers locate or other roots hold. -/
def sweep (live : HeapObjectId → Bool) (held : List InterfaceSnapshotId) : GcHeap P D :=
  let marked := heap.locatedSnapshots live ++ held
  let dead := heap.deadDirectories live
  let swept := if dead.isEmpty then heap
    else
      let (heap, counts) := dead.foldl retire (heap, fun _ => 0)
      { heap with objects := heap.objects.detachMarked counts }
  { swept with interfaces := swept.interfaces.detach fun id => decide (id ∈ marked) }

end GcHeap

end Kagari.Runtime
