import Kagari.Hir.ConstOps
import Kagari.Lib.SortBy

/-!
# Algorithms on lists

`kagari-stdlib/src/foundation/lists/algorithms.rs`, `algorithms/comparison.rs` and
`kagari-runtime/src/native/sequence_edit.rs`. A `Vec` is edited in its buffer, while its callbacks run; any other list
is copied into a buffer first, and then edited by its own operations.

A call may change the world `S` and may fail. Buffers of scalars keep them unboxed. What the standard library's sort
does is a parameter, a `SortBy`.
-/

namespace Kagari.Stdlib

open Lib
open Kagari.Runtime
open Hir (carrier)

variable {S H α β : Type}

/-- A call of a script or of the host. -/
abbrev Call (S α : Type) := S → Except RuntimeError α × S

namespace Call

def pure (a : α) : Call S α := fun s => (.ok a, s)

def fail (e : RuntimeError) : Call S α := fun s => (.error e, s)

/-- What is read of the world. -/
def read (f : S → Except RuntimeError α) : Call S α := fun s => (f s, s)

def bind (call : Call S α) (next : α → Call S β) : Call S β := fun s =>
  match call s with
  | (.ok a, s) => next a s
  | (.error e, s) => (.error e, s)

/-- A call that does not touch something else. -/
def beside {R : Type} (call : Call S α) : Call (S × R) α := fun (s, r) =>
  let (result, s) := call s
  (result, s, r)

end Call

/-! ## Sequences -/

inductive ScalarKind where
  | unit | bool | char
  | integer (ty : IntegerType)
  | f32 | f64
deriving DecidableEq

namespace ScalarKind

/-- The Rust type of an element. -/
def Carrier : ScalarKind → Type
  | unit => Unit
  | bool => Bool
  | char => Char
  | integer ty => { n : Int // inBounds ty.layout.1 ty.layout.2 n = true }
  | f32 => BitVec 32
  | f64 => BitVec 64

/-- `NativeScalar::encode`. -/
def encode : (kind : ScalarKind) → kind.Carrier → Value H
  | unit, () => .unit
  | bool, value => .bool value
  | char, value => .char value
  | integer ty, value => carrier ty value.1
  | f32, value => .f32 value
  | f64, value => .f64 value

def ofBuiltin : BuiltinType → Option ScalarKind
  | .unit => some .unit
  | .bool => some .bool
  | .char => some .char
  | .f32 => some .f32
  | .f64 => some .f64
  | .i8 => some (.integer .i8)
  | .i16 => some (.integer .i16)
  | .i32 => some (.integer .i32)
  | .i64 => some (.integer .i64)
  | .u8 => some (.integer .u8)
  | .u16 => some (.integer .u16)
  | .u32 => some (.integer .u32)
  | .u64 => some (.integer .u64)
  | .never | .string => none

/-- `Ord`, of the types that `sort_scalars` names. -/
def order : (kind : ScalarKind) → Option (kind.Carrier → kind.Carrier → Ordering)
  | unit => some fun _ _ => .eq
  | bool => some fun a b => compare (α := Bool) a b
  | integer _ => some fun a b => compare a.1 b.1
  | char | f32 | f64 => none

end ScalarKind

inductive SequenceStorage (H : Type) where
  | scalar (kind : ScalarKind) (items : List kind.Carrier)
  | traced (items : List (Value H))

namespace SequenceStorage

variable {R : Type}

def kind : SequenceStorage H → Option ScalarKind
  | scalar kind _ => some kind
  | traced _ => none

/-- `get`, of every element. -/
def values : SequenceStorage H → List (Value H)
  | scalar kind items => items.map kind.encode
  | traced items => items

/-- `slice_mut`. -/
def slice (storage : SequenceStorage H) (kind : ScalarKind) : Option (List kind.Carrier) :=
  match storage with
  | scalar own items => if h : own = kind then some (h ▸ items) else none
  | traced _ => none

def reverse : SequenceStorage H → SequenceStorage H
  | scalar kind items => scalar kind items.reverse
  | traced items => traced items.reverse

/-- An edit of the elements, whatever their type is: they are shown as values. -/
def edit (storage : SequenceStorage H) (f : ∀ α : Type, (α → Value H) → List α → R × List α) :
    R × SequenceStorage H :=
  match storage with
  | scalar kind items =>
    let (result, items) := f kind.Carrier kind.encode items
    (result, scalar kind items)
  | traced items =>
    let (result, items) := f (Value H) id items
    (result, traced items)

end SequenceStorage

/-! ## Comparisons -/

inductive Algorithm where
  | sort | sortBy | sortByKey | reverse | retain | dedup | distinct
deriving DecidableEq

/-- What the algorithms use of the call context and of the heap. -/
structure CallContext (S H : Type) where
  poll : Call S Unit
  /-- Whether the memory for a number of elements can be reserved. -/
  room : Nat → Bool
  floats : Floats
  validateHandle : Value H → S → Bool
  string : H → S → Option (List Char)
  /-- The position of a variant of the enumeration `Ordering`. -/
  rank : H → S → Option Nat
  scriptEqual : Value H → Value H → S → Except RuntimeError Bool
  /-- `enums::ordering`. -/
  ordering : Value H → S → Except RuntimeError Ordering

structure LinkedCallable (S H : Type) where
  primitive : Option RuntimePrimitive
  /-- The first parameter, where it is a builtin type. -/
  parameter : Option BuiltinType
  call : List (Value H) → Call S (Value H)

structure Comparison (S H : Type) where
  operation : Option (LinkedCallable S H)
  callback : Option (List (Value H) → Call S (Value H))
  algorithm : Algorithm

def invalidContract : RuntimeError := moduleValidation "list algorithm contract"

def invalidOrdering : RuntimeError := ⟨.scriptTrap, "invalid builtin ordering operands"⟩

/-- `bool::decode`. -/
def decodeBool : Value H → Except RuntimeError Bool
  | .bool value => .ok value
  | _ => .error (moduleValidation "native scalar conversion differs from its declaration")

/-- `partial_cmp` of floats. -/
def floatOrder {w : Nat} (holds : Kagari.Comparison → BitVec w → BitVec w → Bool) (a b : BitVec w) : Option Ordering :=
  if holds .lt a b then some .lt else if holds .eq a b then some .eq else if holds .gt a b then some .gt else none

namespace CallContext

variable (cx : CallContext S H)

def validateValue (value : Value H) (s : S) : Bool :=
  match value with
  | .unit | .bool _ | .char _ | .i32 _ | .i64 _ | .u64 _ | .f32 _ | .f64 _ | .runtimeEphemeral _ => true
  | value => cx.validateHandle value s

def builtinOrder (a b : Value H) (s : S) : Except RuntimeError (Option Ordering) :=
  if !cx.validateValue a s || !cx.validateValue b s then .error invalidOrdering
  else match a, b with
    | .unit, .unit => .ok (some .eq)
    | .bool a, .bool b => .ok (some (compare a b))
    | .char a, .char b => .ok (some (compare a.toNat b.toNat))
    | .i32 a, .i32 b => .ok (some (compare a.toInt b.toInt))
    | .i64 a, .i64 b => .ok (some (compare a.toInt b.toInt))
    | .u64 a, .u64 b => .ok (some (compare a.toNat b.toNat))
    | .f32 a, .f32 b => .ok (floatOrder cx.floats.f32Compare a b)
    | .f64 a, .f64 b => .ok (floatOrder cx.floats.f64Compare a b)
    | .str a, .str b =>
      match cx.string a s, cx.string b s with
      | some a, some b => .ok (some (compare (a.map Char.toNat) (b.map Char.toNat)))
      | _, _ => .error invalidOrdering
    | .enum a, .enum b =>
      match cx.rank a s, cx.rank b s with
      | some a, some b => .ok (some (compare a b))
      | _, _ => .error invalidOrdering
    | _, _ => .error invalidOrdering

end CallContext

namespace Comparison

variable (cx : CallContext S H) (c : Comparison S H)

def keep (value : Value H) : Call S Bool :=
  match c.callback with
  | none => .fail invalidContract
  | some callback => (callback [value]).bind fun result => .read fun _ => decodeBool result

def isInterface : Value H → Bool
  | .interface _ => true
  | _ => false

def equal (a b : Value H) : Call S Bool :=
  cx.poll.bind fun _ =>
    match c.operation with
    | none => .fail invalidContract
    | some operation =>
      if operation.primitive = some .valueEq ∧ !(isInterface a || isInterface b) then .read (cx.scriptEqual a b)
      else (operation.call [a, b]).bind fun result => .read fun _ => decodeBool result

/-- The end of `order`: the values or their keys are compared. -/
def compareBy (a b : Value H) : Call S Ordering :=
  match c.operation with
  | none => .fail invalidContract
  | some operation =>
    if operation.primitive = some .valueCmp then
      (Call.read (cx.builtinOrder a b)).bind fun
        | some order => .pure order
        | none => .fail invalidContract
    else (operation.call [a, b]).bind fun result => .read (cx.ordering result)

def order (a b : Value H) : Call S Ordering :=
  cx.poll.bind fun _ =>
    match c.algorithm, c.callback with
    | .sortBy, none | .sortByKey, none => .fail invalidContract
    | .sortBy, some callback => (callback [a, b]).bind fun result => .read (cx.ordering result)
    | .sortByKey, some selector =>
      (selector [a]).bind fun a => (selector [b]).bind fun b => c.compareBy cx a b
    | _, _ => c.compareBy cx a b

def sortScalars (storage : SequenceStorage H) : Except RuntimeError (Option (SequenceStorage H)) :=
  match c.operation with
  | none => .error invalidContract
  | some operation =>
    if operation.primitive ≠ some .valueCmp then .ok none
    else match operation.parameter.bind ScalarKind.ofBuiltin with
      | none => .ok none
      | some kind =>
        match kind.order with
        | none => .ok none
        | some cmp =>
          match storage.slice kind with
          | none => .error (moduleValidation "sequence edit scalar layout")
          | some items => .ok (some (.scalar kind (items.mergeSort fun a b => (cmp a b).isLE)))

end Comparison

/-! ## Edits of a buffer -/

/-- The failure that an edit keeps aside, as its result. -/
def outcome (failure : Option RuntimeError) : Except RuntimeError Unit :=
  match failure with
  | some e => .error e
  | none => .ok ()

def inconsistentOrder : RuntimeError := ⟨.scriptTrap, "sort comparator does not define a consistent order"⟩

/-- `SequenceEdit::sort_by`. -/
def sortItems (sorter : SortBy) (compare : Value H → Value H → Call S Ordering) (encode : α → Value H) (items : List α)
    (s : S) : (Except RuntimeError Unit × S) × List α :=
  let sorted := (sorter.sorting items).run (fun a b => compare (encode a) (encode b)) none s
  let result := match sorted.failure with
    | some e => .error e
    | none => if sorted.done then .ok () else .error inconsistentOrder
  ((result, sorted.state), sorted.items)

/-- An answer of a callback, once none failed before; `otherwise` is the answer after a failure. -/
def guarded (otherwise : Bool) (call : Call S Bool) : Option RuntimeError × S → Bool × (Option RuntimeError × S)
  | (some e, s) => (otherwise, some e, s)
  | (none, s) =>
    match call s with
    | (.ok answer, s) => (answer, none, s)
    | (.error e, s) => (otherwise, some e, s)

/-- `SequenceEdit::retain`. -/
def retainItems (keep : Value H → Call S Bool) (encode : α → Value H) (items : List α) (s : S) :
    (Except RuntimeError Unit × S) × List α :=
  let (items, failure, s) := retain (fun a => guarded true (keep (encode a))) items (none, s)
  ((outcome failure, s), items)

/-- `SequenceEdit::dedup_by`: the comparison gets the element that is kept first. -/
def dedupItems (equal : Value H → Value H → Call S Bool) (encode : α → Value H) (items : List α) (s : S) :
    (Except RuntimeError Unit × S) × List α :=
  let (items, failure, s) :=
    dedupBy (fun next previous => guarded false (equal (encode previous) (encode next))) items (none, s)
  ((outcome failure, s), items)

namespace Comparison

variable (sorter : SortBy) (cx : CallContext S H) (c : Comparison S H)

/-- Whether a value is equal to one that was seen. -/
def anySeen (value : Value H) : List (Value H) → Call S Bool
  | [] => .pure false
  | previous :: seen => (c.equal cx value previous).bind fun same => if same then .pure true else anySeen value seen

/-- The closure of `Distinct`, with what was seen. -/
def fresh (value : Value H) : Call (S × List (Value H)) Bool := fun (s, seen) =>
  match c.anySeen cx value seen s with
  | (.error e, s) => (.error e, s, seen)
  | (.ok true, s) => (.ok false, s, seen)
  | (.ok false, s) =>
    if cx.room (seen.length + 1) then (.ok true, s, seen ++ [value])
    else (.error (resourceLimit "distinct values"), s, seen)

def distinctItems (encode : α → Value H) (items : List α) (s : S) : (Except RuntimeError Unit × S) × List α :=
  let ((result, s, _), items) := retainItems (c.fresh cx) encode items (s, [])
  ((result, s), items)

def edit (storage : SequenceStorage H) (s : S) : (Except RuntimeError Unit × S) × SequenceStorage H :=
  match c.algorithm with
  | .reverse => ((.ok (), s), storage.reverse)
  | .retain => storage.edit fun _ encode items => retainItems (c.keep) encode items s
  | .dedup => storage.edit fun _ encode items => dedupItems (c.equal cx) encode items s
  | .distinct => storage.edit fun _ encode items => c.distinctItems cx encode items s
  | .sort =>
    match c.sortScalars storage with
    | .error e => ((.error e, s), storage)
    | .ok (some sorted) => ((.ok (), s), sorted)
    | .ok none => storage.edit fun _ encode items => sortItems sorter (c.order cx) encode items s
  | .sortBy | .sortByKey => storage.edit fun _ encode items => sortItems sorter (c.order cx) encode items s

end Comparison

/-! ## Custom lists -/

/-- The operations of a list that is no `Vec`, on the world and what the list holds. They do what the interface says:
a snapshot gets the elements in order, and elements are replaced and removed by their position. -/
structure Receiver (S H : Type) where
  element : Option ScalarKind
  snapshot : Call (S × List (Value H)) (SequenceStorage H)
  set : Nat → Value H → Call (S × List (Value H)) Unit
  remove : Nat → Call (S × List (Value H)) Unit
  snapshot_eq : ∀ s items, ∃ storage s', snapshot (s, items) = (.ok storage, s', items) ∧ storage.kind = element ∧
    storage.values = items
  set_eq : ∀ index value s items, index < items.length →
    ∃ s', set index value (s, items) = (.ok (), s', items.set index value)
  remove_eq : ∀ index s items, index < items.length →
    ∃ s', remove index (s, items) = (.ok (), s', items.eraseIdx index)

namespace Comparison

variable (sorter : SortBy) (cx : CallContext S H) (c : Comparison S H) (receiver : Receiver S H)

/-- Whether `edit_custom` keeps a value, behind the one it kept last. -/
def keeps (previous : Option (Value H)) (value : Value H) : Call S Bool :=
  if c.algorithm = .retain then c.keep value
  else match previous with
    | some previous => (c.equal cx previous value).bind fun same => .pure !same
    | none => .pure true

/-- The loop over a snapshot; `kept` elements of the list are behind. -/
def editLoop : Option (Value H) → Nat → List (Value H) → Call (S × List (Value H)) Unit
  | _, _, [] => .pure ()
  | previous, kept, value :: rest =>
    (Call.beside (cx.poll.bind fun _ => c.keeps cx previous value)).bind fun keep =>
      if keep then editLoop (some value) (kept + 1) rest
      else (receiver.remove kept).bind fun _ => editLoop previous kept rest

/-- The loop that writes a snapshot back. -/
def setLoop (values : List (Value H)) : List Nat → Call (S × List (Value H)) Unit
  | [] => .pure ()
  | index :: rest =>
    cx.poll.beside.bind fun _ =>
      match values[index]? with
      | none => .fail invalidContract
      | some value => (receiver.set index value).bind fun _ => setLoop values rest

def editCustom (target : SequenceStorage H) : Call (S × List (Value H)) Unit :=
  if c.algorithm = .retain ∨ c.algorithm = .dedup then c.editLoop cx receiver none 0 target.values
  else fun (s, items) =>
    match c.edit sorter cx target s with
    | ((.error e, s), _) => (.error e, s, items)
    | ((.ok (), s), edited) => setLoop cx receiver edited.values (List.range target.values.length) (s, items)

/-- `run` on a `Vec`: the result of a copying form, and what the `Vec` holds afterwards. -/
def runVec (copy : Bool) (vec : SequenceStorage H) (s : S) :
    (Except RuntimeError (Option (SequenceStorage H)) × S) × SequenceStorage H :=
  match cx.poll s with
  | (.error e, s) => ((.error e, s), vec)
  | (.ok (), s) =>
    if copy then
      if !cx.room vec.values.length then ((.error (resourceLimit "sequence copy capacity"), s), vec)
      else match c.edit sorter cx vec s with
        | ((.error e, s), _) => ((.error e, s), vec)
        | ((.ok (), s), target) => ((.ok (some target), s), vec)
    else match c.edit sorter cx vec s with
      | ((.error e, s), vec) => ((.error e, s), vec)
      | ((.ok (), s), vec) => ((.ok none, s), vec)

/-- `run` on another list. -/
def runCustom (copy : Bool) : Call (S × List (Value H)) (Option (SequenceStorage H)) :=
  cx.poll.beside.bind fun _ => receiver.snapshot.bind fun target =>
    if copy then fun (s, items) =>
      match c.edit sorter cx target s with
      | ((.error e, s), _) => (.error e, s, items)
      | ((.ok (), s), target) => (.ok (some target), s, items)
    else (c.editCustom sorter cx receiver target).bind fun _ => .pure none

end Comparison

end Kagari.Stdlib
