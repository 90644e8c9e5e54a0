import Kagari.Lib.Stateful
import Kagari.Runtime.CustomKeys
import Kagari.Runtime.Range

/-!
# Operations on a collection

One collection of the heap with all that changes it: `gc/buffers.rs`, `gc/sequence_ops.rs`, `gc/maps_sets.rs`,
`gc/custom_keys.rs`, `gc/capacity.rs`, `gc/mutations.rs`, `gc/sequence_edit.rs` and `gc/native.rs`. What the rest of the
heap answers while an operation runs is a `Call`.

An edit of a sequence takes its values out, calls back, and puts them back at the end: it is three operations,
with others in between.
-/

namespace Kagari.Gc

open Lib Kagari.Runtime

variable {H V R : Type}

/-! ## Collections -/

/-- A hash table whose index is that of its keys. -/
structure HashTable (H V : Type) where
  storage : HashStorage H V
  consistent : storage.Consistent

variable (t : HashTable H V)

namespace HashTable

def new : HashTable H V := ⟨.new, HashStorage.consistent_new⟩

def keys (t : HashTable H V) : List (BuiltKey H) := t.storage.keys

def len (t : HashTable H V) : Nat := t.storage.entries.length

def get (t : HashTable H V) (key : BuiltKey H) : Option V := t.storage.get key

/-- `get` of a set: the stored key. -/
def stored (t : HashTable H V) (key : BuiltKey H) : Option (BuiltKey H) := (t.storage.find key).map (·.1)

/-- The index of a consistent table meets no `expect`. -/
theorem insert_isSome (key : BuiltKey H) (value : V) (rooms : Rooms) :
    ∃ out, t.storage.insert key value rooms = some out ∧ out.2.Consistent := by
  obtain ⟨result, storage, hins, hnext⟩ : ∃ result storage,
      t.storage.insert key value rooms = some (result,
        storage) ∧ storage.Consistent := t.consistent.insert key value rooms
  exact ⟨(result, storage), hins, hnext⟩

theorem remove_isSome (key : BuiltKey H) :
    ∃ out, t.storage.remove key = some out ∧ out.2.Consistent := by
  obtain ⟨result, storage, hrem, hnext⟩ : ∃ result storage,
      t.storage.remove key = some (result, storage) ∧ storage.Consistent := t.consistent.remove key
  exact ⟨(result, storage), hrem, hnext⟩

def insert (t : HashTable H V) (key : BuiltKey H) (value : V) (rooms : Rooms) :
    Except TryReserveError (Option V) × HashTable H V :=
  match h : t.storage.insert key value rooms with
  | some (result, storage) => (result, ⟨storage, by have := insert_isSome t key value rooms; grind⟩)
  | none => absurd h (by have := insert_isSome t key value rooms; grind)

def remove (t : HashTable H V) (key : BuiltKey H) : Option V × HashTable H V :=
  match h : t.storage.remove key with
  | some (value, storage) => (value, ⟨storage, by have := remove_isSome t key; grind⟩)
  | none => absurd h (by have := remove_isSome t key; grind)

def replace (t : HashTable H V) (key : BuiltKey H) (value : V) : HashTable H V :=
  ⟨t.storage.replace key value, t.consistent.replace⟩

def clear (t : HashTable H V) : HashTable H V := ⟨t.storage.clear, .clear _⟩

end HashTable

structure SequencePayload (H : Type) where
  values : List (Value H)
  /-- An edit has taken the values out. -/
  detached : Bool

/-- Builtin arrays do not grow. -/
inductive Family where
  | array
  | nominal
deriving DecidableEq

inductive Payload (H : Type) where
  | sequence (family : Family) (sequence : SequencePayload H)
  | map (builtinKeys : Bool) (entries : HashTable H (Value H))
  | set (builtinKeys : Bool) (entries : HashTable H Unit)

structure StorageLease (H : Type) where
  values : List (Value H)
  revision : Nat

/-- A collection of the heap, with the leases on it. -/
structure Collection (H : Type) where
  payload : Payload H
  revision : Nat
  /-- The guards of `begin_collection_mutation`. -/
  mutations : Nat
  keyLookups : Nat
  /-- The lease of an edit that runs. -/
  edit : Option (StorageLease H)
  quarantined : Bool

/-- As it is allocated. -/
def Collection.new (payload : Payload H) : Collection H := ⟨payload, 0, 0, 0, none, false⟩

/-- The order in which a hash table is gone through, which is not specified. -/
structure Iteration (H : Type) where
  order : List (BuiltKey H) → List (BuiltKey H)
  perm : ∀ keys, (order keys).Perm keys

/-- The entries of a table, in the order of an iteration. -/
def HashTable.iter (t : HashTable H V) (iteration : Iteration H) : List (BuiltKey H × V) :=
  (iteration.order t.keys).filterMap t.storage.find

/-- What the rest of the heap answers while an operation runs. -/
structure Call (H : Type) where
  /-- The session that runs may read the collection. -/
  readable : Bool
  execution : Except RuntimeError Unit
  /-- The values, types and roots are those that the operation asks for. -/
  accepted : Bool
  /-- `poll_execution`, and temporary memory. -/
  poll : Except RuntimeError Unit
  /-- `ensure_execution_allowed` once more, after polling. -/
  resumed : Except RuntimeError Unit
  borrowed : Bool
  /-- `prepare_heap_change`. -/
  change : Except RuntimeError Unit
  reserve : Bool
  /-- A table of leases has room for one more. -/
  registered : Bool
  rooms : Nat → Rooms
  capacity : Nat
  /-- `decode` of an element. -/
  decode : Value H → Except RuntimeError Unit
  /-- A new key token, when one is left. -/
  token : Option (BitVec 64)
  iteration : Iteration H

abbrev HeapOp (H R : Type) := Stateful (Collection H) RuntimeError R

def okOr (value : Option R) (e : RuntimeError) : Except RuntimeError R := value.elim (.error e) .ok

def require (condition : Bool) (e : RuntimeError) : Except RuntimeError Unit := if condition then .ok () else .error e

/-! ## Admission -/

def invalidBuffer : RuntimeError := ⟨.scriptTrap, "invalid sequence buffer or payload"⟩

def invalidTarget : RuntimeError := ⟨.scriptTrap, "invalid array target or index"⟩

def invalidIndex : RuntimeError := ⟨.indexOutOfBounds, "sequence index is out of bounds"⟩

def invalidHash : RuntimeError := moduleValidation "invalid hash storage"

def invalidProtocol : RuntimeError := ⟨.scriptTrap, "hash storage type or selected key protocol mismatch"⟩

def invalidPrepared : RuntimeError := ⟨.scriptTrap, "invalid prepared collection"⟩

def invalidEdit : RuntimeError := moduleValidation "invalid sequence edit receiver"

def storageBorrowed : RuntimeError := moduleValidation "heap storage is borrowed"

namespace Collection

/-- `revision.checked_add(1)`. -/
def nextRevision (c : Collection H) : Option Nat := if c.revision + 1 < 2 ^ 64 then some (c.revision + 1) else none

def ensureExecutionAllowed (c : Collection H) (call : Call H) : Except RuntimeError Unit := do
  require (!c.quarantined) ⟨.engineFault, "sequence lease restoration failed"⟩
  call.execution

def ensureCallbackMutable (c : Collection H) : Except RuntimeError Unit :=
  require (c.mutations = 0 ∧ c.edit.isNone) ⟨.scriptTrap, "container mutation during a guarded callback"⟩

def ensureKeyMutable (c : Collection H) : Except RuntimeError Unit := do
  c.ensureCallbackMutable
  require (c.keyLookups = 0) ⟨.scriptTrap, "container mutation during key comparison or hashing"⟩

def ensureStructureMutable (c : Collection H) : Except RuntimeError Unit := c.ensureKeyMutable

/-- `with_buffer`: the values, when they can be read. -/
def buffer (c : Collection H) (readable : Bool) : Option (List (Value H)) :=
  match c.payload with
  | .sequence _ s => if readable && !s.detached then some s.values else none
  | _ => none

def isFamily (c : Collection H) (family : Family) : Bool :=
  match c.payload with
  | .sequence own _ => own = family
  | _ => false

def isMap (c : Collection H) : Bool := c.payload matches .map _ _

def isSet (c : Collection H) : Bool := c.payload matches .set _ _

/-- `uses_builtin_keys`. -/
def usesBuiltinKeys (c : Collection H) : Bool :=
  match c.payload with
  | .map builtin _ | .set builtin _ => builtin
  | .sequence _ _ => false

/-- `collection_revision`. -/
def collectionRevision (c : Collection H) (readable : Bool) : Option Nat :=
  match c.payload with
  | .sequence _ s => if readable && !s.detached then some c.revision else none
  | _ => if readable then some c.revision else none

end Collection

section Operations

variable (call : Call H)

def ensureExecutionAllowed : HeapOp H Unit := do (← get).ensureExecutionAllowed call

def ensureCallbackMutable : HeapOp H Unit := do (← get).ensureCallbackMutable

def ensureKeyMutable : HeapOp H Unit := do (← get).ensureKeyMutable

def ensureStructureMutable : HeapOp H Unit := do (← get).ensureStructureMutable

def ensureSequence : HeapOp H Unit := do
  require (call.readable && (← get).isFamily .nominal) (moduleValidation "expected a nominal sequence object")

/-- A `GcHandle` has to be one of a sequence. -/
def ensureHandle : HeapOp H Unit := do
  if (← get).isFamily .nominal then ensureSequence call

/-- `ensure_array` or `ensure_sequence`. -/
def ensureFamily : Family → HeapOp H Unit
  | .nominal => ensureSequence call
  | .array => do
    require (call.readable && (← get).isFamily .array) ⟨.scriptTrap, "expected a builtin array object"⟩

/-- What a structural operation on a nominal sequence asks first. -/
def admitStructural : HeapOp H Unit := do
  ensureExecutionAllowed call
  ensureSequence call
  ensureStructureMutable

/-- What a write that keeps the length asks first. -/
def admitWrite (family : Family) : HeapOp H Unit := do
  ensureFamily call family
  ensureExecutionAllowed call
  ensureCallbackMutable

def readBuffer (e : RuntimeError) : HeapOp H (List (Value H)) := do okOr ((← get).buffer call.readable) e

/-! ## Changes of the storage -/

def withBufferMut (f : List (Value H) → Except RuntimeError R × List (Value H)) : HeapOp H R := do
  require (!call.borrowed) storageBorrowed
  require call.readable invalidBuffer
  let c ← get
  let revision ← okOr c.nextRevision invalidBuffer
  match c.payload with
  | .sequence family s =>
    call.change
    require (!s.detached) invalidBuffer
    let (result, values) := f s.values
    set { c with
      payload := .sequence family { s with values }
      revision := if values.length ≠ s.values.length then revision else c.revision }
    result
  | _ => throw invalidBuffer

def withMapMut (f : HashTable H (Value H) → Except RuntimeError R × HashTable H (Value H)) : HeapOp H R := do
  require (!call.borrowed) storageBorrowed
  require call.readable invalidHash
  let c ← get
  let revision ← okOr c.nextRevision invalidHash
  match c.payload with
  | .map builtin entries =>
    call.change
    let (result, changed) := f entries
    set { c with
      payload := .map builtin changed
      revision := if changed.len ≠ entries.len then revision else c.revision }
    result
  | _ => throw invalidHash

def withSetMut (f : HashTable H Unit → Except RuntimeError R × HashTable H Unit) : HeapOp H R := do
  require (!call.borrowed) storageBorrowed
  require call.readable invalidHash
  let c ← get
  let revision ← okOr c.nextRevision invalidHash
  match c.payload with
  | .set builtin entries =>
    call.change
    let (result, changed) := f entries
    set { c with
      payload := .set builtin changed
      revision := if changed.len ≠ entries.len then revision else c.revision }
    result
  | _ => throw invalidHash

/-! ## Sequences -/

/-- The values of the other sequence of an operation. -/
inductive Source (H : Type) where
  /-- It is the same one. -/
  | target
  | other (values : Option (List (Value H)))

def readSource (source : Source H) (e : RuntimeError) : HeapOp H (List (Value H)) :=
  match source with
  | .target => readBuffer call e
  | .other values => do okOr values e

/-- `try_reserve(1)`, then a change that decodes the value. -/
def growBy (value : Value H) (f : List (Value H) → List (Value H)) (values : List (Value H)) :
    Except RuntimeError Unit × List (Value H) :=
  if !call.reserve then (.error (resourceLimit "allocation capacity"), values)
  else match call.decode value with
    | .error e => (.error e, values)
    | .ok () => (.ok (), f values)

def sequencePush (value : Value H) : HeapOp H Unit := do
  admitStructural call
  require call.accepted invalidBuffer
  withBufferMut call (growBy call value (· ++ [value]))

def sequencePop : HeapOp H (Option (Value H)) := do
  admitStructural call
  withBufferMut call fun values => (.ok values.getLast?, values.dropLast)

def sequenceInsert (index : Nat) (value : Value H) : HeapOp H Unit := do
  admitStructural call
  require call.accepted invalidBuffer
  let values ← readBuffer call invalidTarget
  require (index ≤ values.length) invalidTarget
  withBufferMut call (growBy call value (·.insertIdx index value))

def sequenceRemove (index : Nat) : HeapOp H (Option (Value H)) := do
  admitStructural call
  withBufferMut call fun values => (.ok values[index]?, values.eraseIdx index)

def sequenceClear : HeapOp H Unit := do
  admitStructural call
  withBufferMut call fun _ => (.ok (), [])

def sequenceTruncate (length : Nat) : HeapOp H Unit := do
  admitStructural call
  call.poll
  withBufferMut call fun values => (.ok (), values.take length)

/-- The last value takes the place of the removed one. -/
def sequenceSwapRemove (index : Nat) : HeapOp H (Option (Value H)) := do
  admitStructural call
  withBufferMut call fun values =>
    match values[index]?, values.getLast? with
    | some value, some last => (.ok (some value), (values.set index last).dropLast)
    | _, _ => (.ok none, values)

def sequenceExtend (source : Source H) : HeapOp H Unit := do
  admitStructural call
  let prepared ← readSource call source invalidTarget
  require call.accepted invalidTarget
  call.poll
  call.resumed
  ensureSequence call
  withBufferMut call fun values =>
    if call.reserve then (.ok (), values ++ prepared) else (.error (resourceLimit "array capacity"), values)

def swapped (values : List (Value H)) (a b : Nat) : List (Value H) :=
  match values[a]?, values[b]? with
  | some x, some y => (values.set a y).set b x
  | _, _ => values

def sequenceSwap (a b : Nat) : HeapOp H Unit := do
  admitStructural call
  require (!call.borrowed) storageBorrowed
  require call.readable invalidTarget
  let c ← get
  let revision ← okOr c.nextRevision invalidTarget
  match c.payload with
  | .sequence .nominal s =>
    require (a < s.values.length ∧ b < s.values.length) invalidTarget
    set { c with
      payload := .sequence .nominal { s with values := swapped s.values a b }
      revision := if a ≠ b then revision else c.revision }
  | _ => throw invalidTarget

def sequenceReverse : HeapOp H Unit := do
  admitStructural call
  let count := (← readBuffer call invalidTarget).length
  call.poll
  require (!call.borrowed) storageBorrowed
  require call.readable invalidTarget
  let c ← get
  let revision ← okOr c.nextRevision invalidTarget
  match c.payload with
  | .sequence .nominal s =>
    set { c with
      payload := .sequence .nominal { s with values := s.values.reverse }
      revision := if 1 < count then revision else c.revision }
  | _ => throw invalidTarget

def pushSequenceValue (value : Value H) : HeapOp H Unit := do
  admitStructural call
  require (!call.borrowed) (moduleValidation "conflicting native storage borrow")
  require call.accepted (moduleValidation "sequence value differs from its element type")
  withBufferMut call (growBy call value (· ++ [value]))

/-- What a closure does with a slice of scalars: it writes them, and returns unless it unwinds. -/
structure SliceAccess (H : Type) where
  write : List (Value H) → List (Value H)
  sameLength : ∀ values, (write values).length = values.length
  result : Option (Except RuntimeError Unit)

/-- The new revision is stored after the closure returns: one that unwinds leaves its writes without it. -/
def withSequenceMut (access : SliceAccess H) : HeapOp H (Option Unit) := do
  admitStructural call
  require (!call.borrowed) (moduleValidation "conflicting native storage borrow")
  require call.readable (moduleValidation "invalid sequence receiver")
  let c ← get
  let revision ← okOr c.nextRevision (moduleValidation "sequence revision exhausted")
  match c.payload with
  | .sequence .nominal s =>
    require call.accepted (moduleValidation "sequence scalar layout")
    let payload := .sequence .nominal { s with values := access.write s.values }
    match access.result with
    | none => set { c with payload }; return none
    | some result => set { c with payload, revision }; result; return some ()
  | _ => throw (moduleValidation "invalid sequence receiver")

/-! ## Writes that keep the length -/

def bufferSet (family : Family) (index : Option Nat) (value : Value H) : HeapOp H Unit := do
  admitWrite call family
  require call.accepted invalidBuffer
  withBufferMut call fun values =>
    match index with
    | none => (.error invalidIndex, values)
    | some index =>
      if values.length ≤ index then (.error invalidIndex, values)
      else match call.decode value with
        | .error e => (.error e, values)
        | .ok () => (.ok (), values.set index value)

def bufferFill (family : Family) (value : Value H) : HeapOp H Unit := do
  admitWrite call family
  require call.accepted invalidBuffer
  let length := (← readBuffer call invalidBuffer).length
  call.poll
  require call.reserve (resourceLimit "array fill capacity")
  if 0 < length then call.decode value
  call.resumed
  withBufferMut call fun _ => (.ok (), List.replicate length value)

def bufferCopyFrom (family : Family) (source : Source H) : HeapOp H Unit := do
  admitWrite call family
  let values ← readBuffer call invalidBuffer
  let unequal : RuntimeError := ⟨.scriptTrap, "array copy requires equal lengths"⟩
  let prepared ← readSource call source unequal
  require (prepared.length = values.length) unequal
  require call.accepted invalidBuffer
  call.poll
  call.resumed
  withBufferMut call fun _ => (.ok (), prepared)

/-- `overwrite`. -/
def overwrite (start : Nat) (source values : List (Value H)) : Except RuntimeError Unit × List (Value H) :=
  if values.length < start + source.length then (.error invalidIndex, values)
  else (.ok (), values.take start ++ source ++ values.drop (start + source.length))

def bufferCopyWithin (family : Family) (start stop : Bound Nat) (destination : Nat) : HeapOp H Unit := do
  admitWrite call family
  let bounds : RuntimeError := ⟨.indexOutOfBounds, "array copy range is out of bounds"⟩
  let values ← readBuffer call bounds
  let start := match start with
    | .unbounded => 0
    | .included n => n
    | .excluded n => n + 1
  let stop := match stop with
    | .unbounded => values.length
    | .excluded n => n
    | .included n => n + 1
  require (start ≤ stop ∧ stop ≤ values.length ∧ destination ≤ values.length ∧
    stop - start ≤ values.length - destination) bounds
  call.poll
  call.resumed
  withBufferMut call (overwrite destination ((values.take stop).drop start))

/-! ## Maps and sets -/

def allocationCapacity : RuntimeError := resourceLimit "allocation capacity"

/-- `try_reserve` and `insert` of a key that a builtin protocol has made. -/
def insertEntry (structural : Except RuntimeError Unit) (key : BuiltKey H) (value : V) (entries : HashTable H V) :
    Except RuntimeError Bool × HashTable H V :=
  let fresh := (entries.get key).isNone
  match if fresh then structural else .ok () with
  | .error e => (.error e, entries)
  | .ok () =>
    if fresh && !call.reserve then (.error allocationCapacity, entries)
    else match entries.insert key value (call.rooms 0) with
      | (.error _, entries) => (.error allocationCapacity, entries)
      | (.ok old, entries) => (.ok old.isNone, entries)

def invalidHashKey : RuntimeError := ⟨.scriptTrap, "invalid hash key"⟩

/-- The key is the one that `MapKey::from_value` makes. -/
def mapInsert (key : Option (BuiltKey H)) (value : Value H) : HeapOp H Unit := do
  ensureExecutionAllowed call
  let c ← get
  require (call.readable && c.isMap && c.usesBuiltinKeys && call.accepted) invalidProtocol
  let key ← okOr key invalidHashKey
  ensureKeyMutable
  let _ ← withMapMut call (insertEntry call (← get).ensureStructureMutable key value)

def mapRemove (key : Option (BuiltKey H)) : HeapOp H (Option (Value H)) := do
  ensureExecutionAllowed call
  ensureStructureMutable
  let c ← get
  require (call.readable && c.isMap && c.usesBuiltinKeys && call.accepted) invalidProtocol
  let key ← okOr key invalidHashKey
  withMapMut call fun entries => ((entries.remove key).map .ok id)

def mapClear : HeapOp H Unit := do
  ensureExecutionAllowed call
  ensureStructureMutable
  withMapMut call fun entries => (.ok (), entries.clear)

def setInsert (key : Option (BuiltKey H)) : HeapOp H Bool := do
  ensureExecutionAllowed call
  let c ← get
  require (call.readable && c.isSet && c.usesBuiltinKeys && call.accepted) invalidProtocol
  let key ← okOr key invalidHashKey
  ensureKeyMutable
  withSetMut call (insertEntry call (← get).ensureStructureMutable key ())

def setRemove (key : Option (BuiltKey H)) : HeapOp H Bool := do
  ensureExecutionAllowed call
  ensureStructureMutable
  let c ← get
  require (call.readable && c.isSet && c.usesBuiltinKeys && call.accepted) invalidProtocol
  let key ← okOr key invalidHashKey
  withSetMut call fun entries => ((entries.remove key).map (fun old => .ok old.isSome) id)

def setClear : HeapOp H Unit := do
  ensureExecutionAllowed call
  ensureStructureMutable
  withSetMut call fun entries => (.ok (), entries.clear)

def ensureKeyMode (custom : Bool) : HeapOp H Unit := do
  ensureExecutionAllowed call
  let c ← get
  require (call.readable && (c.isMap || c.isSet)) invalidKeyOperation
  require (c.usesBuiltinKeys ≠ custom)
    ⟨.scriptTrap, "collection key protocol mismatch; custom keys require script protocol execution"⟩

/-- What `custom_insert` does in the table. -/
def insertCustom (fresh : Bool) (key : BuiltKey H) (value : V) (entries : HashTable H V) :
    Except RuntimeError Unit × HashTable H V :=
  if fresh then
    if !call.reserve then (.error allocationCapacity, entries)
    else match entries.insert key value (call.rooms 0) with
      | (.error _, entries) => (.error allocationCapacity, entries)
      | (.ok _, entries) => (.ok (), entries)
  else if (entries.get key).isSome then (.ok (), entries.replace key value)
  else (.error invalidKeyOperation, entries)

/-- The token -1 asks for a new one. -/
def keyToken (token : BitVec 64) : HeapOp H (BitVec 64) := do
  if token = -1 then
    ensureStructureMutable
    okOr call.token invalidKeyOperation
  else return token

def customInsert (hash token : BitVec 64) (key value : Value H) : HeapOp H Unit := do
  ensureExecutionAllowed call
  let c ← get
  require (call.readable && (c.isMap || c.isSet) && call.accepted) invalidKeyOperation
  ensureKeyMutable
  ensureKeyMode call true
  let fresh := token = -1
  let token ← keyToken call token
  if c.isMap then withMapMut call (insertCustom call fresh (.custom hash token key) value)
  else withSetMut call (insertCustom call fresh (.custom hash token key) ())

def customRemove (hash token : BitVec 64) : HeapOp H Unit := do
  ensureExecutionAllowed call
  let c ← get
  require (c.isMap || c.isSet) invalidKeyOperation
  ensureStructureMutable
  ensureKeyMode call true
  let key : BuiltKey H := .custom hash token .unit
  if c.isMap then withMapMut call fun entries => (.ok (), (entries.remove key).2)
  else withSetMut call fun entries => (.ok (), (entries.remove key).2)

/-! ## Whole collections -/

def invalidCapacity : RuntimeError := ⟨.scriptTrap, "invalid capacity receiver"⟩

def reserveCollection (additional : Nat) : HeapOp H Unit := do
  ensureExecutionAllowed call
  let c ← get
  require (!c.isFamily .array) invalidCapacity
  ensureHandle call
  ensureCallbackMutable
  require call.readable invalidCapacity
  let reserved : Except RuntimeError Unit := require call.reserve (resourceLimit "collection capacity")
  match c.payload with
  | .sequence _ _ => do
    let values ← readBuffer call invalidCapacity
    if call.capacity < values.length + additional then withBufferMut call fun values => (reserved, values)
  | .map _ entries =>
    if call.capacity < entries.len + additional then withMapMut call fun entries => (reserved, entries)
  | .set _ entries =>
    if call.capacity < entries.len + additional then withSetMut call fun entries => (reserved, entries)

inductive PreparedCollectionCommit where
  | replaceSequence
  | retain
deriving DecidableEq

/-- Every mark of a mask. -/
def marks (input : List (Value H)) : Option (List Bool) :=
  input.mapM fun | .bool keep => some keep | _ => none

/-- The items with a mark. -/
def kept {α : Type} (items : List α) (mask : List Bool) : List α :=
  (items.zip mask).filterMap fun (item, keep) => if keep then some item else none

/-- A new table, filled one entry after another. -/
def rebuilt (entries : List (BuiltKey H × V)) : Except RuntimeError (HashTable H V) :=
  entries.zipIdx.foldlM (fun table ((key, value), n) =>
    match table.insert key value (call.rooms n) with
    | (.error _, _) => .error (resourceLimit "prepared collection storage")
    | (.ok _, table) => .ok table) .new

/-- The storage that takes the place of the old one. -/
def preparedPayload (operation : PreparedCollectionCommit) (payload : Payload H) (input : List (Value H)) :
    Except RuntimeError (Payload H) :=
  match operation with
  | .replaceSequence =>
    match payload with
    | .sequence .nominal s => do
      require (input.length ≤ s.values.length && call.accepted) invalidPrepared
      return .sequence .nominal ⟨input, false⟩
    | _ => throw invalidPrepared
  | .retain => do
    require call.accepted invalidPrepared
    let mask ← okOr (marks input) invalidPrepared
    match payload with
    | .sequence .nominal s =>
      require (s.values.length = mask.length) invalidPrepared
      require call.reserve (resourceLimit "prepared collection storage")
      return .sequence .nominal ⟨kept s.values mask, false⟩
    | .map builtin entries =>
      require (entries.len = mask.length) invalidPrepared
      require call.reserve (resourceLimit "prepared collection storage")
      return .map builtin (← rebuilt call (kept (entries.iter call.iteration) mask))
    | .set builtin entries =>
      require (entries.len = mask.length) invalidPrepared
      require call.reserve (resourceLimit "prepared collection storage")
      return .set builtin (← rebuilt call (kept (entries.iter call.iteration) mask))
    | _ => throw invalidPrepared

/-- The values of an input are read also while an edit has them. -/
def readInput (input : Source H) : HeapOp H (List (Value H)) := do
  match input, (← get).payload with
  | .other (some values), _ => pure values
  | .target, .sequence .nominal s => pure s.values
  | _, _ => throw (moduleValidation "expected a nominal sequence object")

def commitPreparedCollection (operation : PreparedCollectionCommit) (input : Source H) : HeapOp H Unit := do
  require (!(← get).isFamily .array) invalidPrepared
  ensureExecutionAllowed call
  let input ← readInput input
  ensureHandle call
  ensureStructureMutable
  require call.readable invalidPrepared
  call.poll
  let c ← get
  let revision ← okOr c.nextRevision invalidPrepared
  let payload ← preparedPayload call operation c.payload input
  call.resumed
  require (!call.borrowed) storageBorrowed
  call.change
  set { c with payload, revision }

/-! ## Leases -/

def beginCollectionMutation : HeapOp H Unit := do
  ensureExecutionAllowed call
  require (!(← get).isFamily .array) ⟨.scriptTrap, "invalid mutation target"⟩
  ensureCallbackMutable
  require call.accepted ⟨.scriptTrap, "invalid mutation root"⟩
  require call.registered (resourceLimit "mutation registry")
  modify fun c => { c with mutations := c.mutations + 1 }

def endCollectionMutation : HeapOp H Unit := modify fun c => { c with mutations := c.mutations - 1 }

def beginKeyLookup : HeapOp H Unit := do
  ensureExecutionAllowed call
  require call.accepted invalidKeyOperation
  let c ← get
  require (c.isMap || c.isSet) invalidKeyOperation
  require call.registered (resourceLimit "key lookup registry")
  modify fun c => { c with keyLookups := c.keyLookups + 1 }

def endKeyLookup : HeapOp H Unit := modify fun c => { c with keyLookups := c.keyLookups - 1 }

/-- The start of `edit_sequence`. -/
def beginEdit : HeapOp H Unit := do
  admitStructural call
  let _ ← readBuffer call (moduleValidation "sequence storage is exclusively borrowed")
  require call.reserve (resourceLimit "sequence edit roots")
  require call.accepted invalidEdit
  require call.registered (resourceLimit "sequence edit registry")
  require (!call.borrowed) invalidEdit
  let c ← get
  let revision ← okOr c.nextRevision invalidEdit
  match c.payload with
  | .sequence family s =>
    set { c with payload := .sequence family ⟨[], true⟩, edit := some ⟨s.values, revision⟩ }
  | _ => throw invalidEdit

/-- What a `SequenceEdit` can do to the values, also when it fails: reverse, sort, write, or drop some of them. -/
structure SequenceEdit (H : Type) where
  apply : List (Value H) → List (Value H)
  shrinks : ∀ values, (apply values).length ≤ values.length

def editValues (change : SequenceEdit H) : HeapOp H Unit :=
  modify fun c => { c with edit := c.edit.map fun lease => { lease with values := change.apply lease.values } }

/-- The lease is dropped, also when a callback has failed or unwound: the values are put back unless the heap is
borrowed or the collection not readable. -/
def Collection.dropLease (c : Collection H) : Collection H :=
  match c.edit, c.payload with
  | none, _ => c
  | some lease, .sequence family _ =>
    if call.readable && !call.borrowed then
      { c with payload := .sequence family ⟨lease.values, false⟩, revision := lease.revision, edit := none }
    else { c with edit := none, quarantined := true }
  | some _, _ => { c with edit := none, quarantined := true }

/-- The end of `edit_sequence`. -/
def endEdit : HeapOp H Unit := modify (Collection.dropLease call)

end Operations

/-! ## Steps -/

inductive Op (H : Type) where
  | push (value : Value H)
  | pop
  | insert (index : Nat) (value : Value H)
  | remove (index : Nat)
  | clear
  | truncate (length : Nat)
  | swapRemove (index : Nat)
  | extend (source : Source H)
  | swap (a b : Nat)
  | reverse
  | pushValue (value : Value H)
  | slice (access : SliceAccess H)
  | set (family : Family) (index : Option Nat) (value : Value H)
  | fill (family : Family) (value : Value H)
  | copyFrom (family : Family) (source : Source H)
  | copyWithin (family : Family) (start stop : Bound Nat) (destination : Nat)
  | mapInsert (key : Option (BuiltKey H)) (value : Value H)
  | mapRemove (key : Option (BuiltKey H))
  | mapClear
  | setInsert (key : Option (BuiltKey H))
  | setRemove (key : Option (BuiltKey H))
  | setClear
  | customInsert (hash token : BitVec 64) (key value : Value H)
  | customRemove (hash token : BitVec 64)
  | reserve (additional : Nat)
  | commit (operation : PreparedCollectionCommit) (input : Source H)
  | beginMutation
  | endMutation
  | beginLookup
  | endLookup
  | beginEdit
  | edit (change : SequenceEdit H)
  | endEdit

/-- What an operation returns is left out. -/
def Op.perform (call : Call H) : Op H → HeapOp H Unit
  | push value => sequencePush call value
  | pop => discard (sequencePop call)
  | insert index value => sequenceInsert call index value
  | remove index => discard (sequenceRemove call index)
  | clear => sequenceClear call
  | truncate length => sequenceTruncate call length
  | swapRemove index => discard (sequenceSwapRemove call index)
  | extend source => sequenceExtend call source
  | swap a b => sequenceSwap call a b
  | reverse => sequenceReverse call
  | pushValue value => pushSequenceValue call value
  | slice access => discard (withSequenceMut call access)
  | set family index value => bufferSet call family index value
  | fill family value => bufferFill call family value
  | copyFrom family source => bufferCopyFrom call family source
  | copyWithin family start stop destination => bufferCopyWithin call family start stop destination
  | mapInsert key value => Gc.mapInsert call key value
  | mapRemove key => discard (Gc.mapRemove call key)
  | mapClear => Gc.mapClear call
  | setInsert key => discard (Gc.setInsert call key)
  | setRemove key => discard (Gc.setRemove call key)
  | setClear => Gc.setClear call
  | customInsert hash token key value => Gc.customInsert call hash token key value
  | customRemove hash token => Gc.customRemove call hash token
  | reserve additional => reserveCollection call additional
  | commit operation input => commitPreparedCollection call operation input
  | beginMutation => beginCollectionMutation call
  | endMutation => endCollectionMutation
  | beginLookup => beginKeyLookup call
  | endLookup => endKeyLookup
  | beginEdit => Gc.beginEdit call
  | edit change => editValues change
  | endEdit => Gc.endEdit call

/-- The collection that an operation leaves, also when it fails. -/
def Collection.step (c : Collection H) (request : Call H × Op H) : Collection H :=
  (Stateful.exec (request.2.perform request.1) c).2

def Collection.run (c : Collection H) (requests : List (Call H × Op H)) : Collection H := requests.foldl step c

end Kagari.Gc
