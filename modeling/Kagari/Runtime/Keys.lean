import Kagari.Runtime.Operands

/-!
# Hashed keys and language equality

- `Heap`: what an identity of a heap object reads as (`gc.rs`, `gc/values.rs`). A payload that equality
  and keys only ask the kind of has no contents here
- `EnumVariantRef`: the installed variant of an enum value, and its equality (`module.rs`)
- `MapKey.fromValue`, its equality and `scriptHash` (`value.rs`)
- `scriptEqual` (`value_semantics.rs`). A tuple may hold itself in an arbitrary heap, so the recursion
  takes fuel: `none` is a run deeper than the fuel

The heap is not borrowed by another caller during these reads.
-/

namespace Kagari.Runtime

/-! ## Enum variants -/

structure EnumVariantLayout where
  declaration : DefinitionId
  payload : List Ty
  reportsFailure : Bool

structure EnumLayout where
  declaration : DefinitionId
  arguments : List Ty
  variants : List EnumVariantLayout

/-- What a layout reads of its executable module: the registry that owns it, the installation that
supplied the program, and the layouts of its bytecode. -/
structure EnumModule where
  registryOwner : Nat
  installationId : Nat
  enumerations : List EnumLayout

/-- `EnumVariantRef`, with the layout it selects: the applied one, or the module's own. -/
structure EnumVariantRef where
  module : EnumModule
  id : Nat
  variantIndex : Nat
  applied : Option EnumLayout
  layout : EnumLayout
  variant : EnumVariantLayout
  layout_eq : applied.or module.enumerations[id]? = some layout
  variant_eq : layout.variants[variantIndex]? = some variant

def EnumVariantRef.eq (a b : EnumVariantRef) : Bool :=
  a.module.registryOwner == b.module.registryOwner
    && a.module.installationId == b.module.installationId
    && a.layout.declaration == b.layout.declaration
    && a.layout.arguments == b.layout.arguments
    && a.variant.declaration == b.variant.declaration

inductive EnumTag where
  | declared (variant : EnumVariantRef)

def EnumTag.eq : EnumTag → EnumTag → Bool
  | .declared a, .declared b => a.eq b

structure EnumValueSnapshot (H : Type) where
  tag : EnumTag
  fields : List (Value H)

/-! ## Heap reads -/

inductive GcObjectKind where
  | string | tuple | range | hostRoot | hostPath | ephemeral | native | iter | array | map | set
  | enum | struct | interface | closure | cell
deriving DecidableEq

inductive HeapObject (H : Type) where
  | string (text : String)
  | tuple (members : List (Value H))
  | range
  | hostRoot
  | hostPath
  | ephemeral
  | native (ty : Ty)
  | enum (value : EnumValueSnapshot H)
  | struct
  | interface
  | closure
  | cell

def HeapObject.kind {H : Type} : HeapObject H → GcObjectKind
  | .string _ => .string
  | .tuple _ => .tuple
  | .range => .range
  | .hostRoot => .hostRoot
  | .hostPath => .hostPath
  | .ephemeral => .ephemeral
  | .native ty =>
    match ty with
    | .array _ => .array
    | .map .. => .map
    | .set .. => .set
    | .iter _ => .iter
    | _ => .native
  | .enum _ => .enum
  | .struct => .struct
  | .interface => .interface
  | .closure => .closure
  | .cell => .cell

abbrev Heap (H : Type) := H → Option (HeapObject H)

namespace Heap

variable {H : Type} (gc : Heap H)

def objectKind (id : H) : Option GcObjectKind := (gc id).map HeapObject.kind

def string (id : H) : Option String := do
  match ← gc id with
  | .string text => some text
  | _ => none

def tuple (id : H) : Option (List (Value H)) := do
  match ← gc id with
  | .tuple members => some members
  | _ => none

def enumView (id : H) : Option (EnumValueSnapshot H) := do
  match ← gc id with
  | .enum value => some value
  | _ => none

variable {gc}

variable {id : H}

theorem string_eq_some {text : String} : gc.string id = some text ↔ gc id = some (.string text) := by
  cases h : gc id with
  | none => simp [string, h]
  | some object => cases object <;> simp [string, h]

theorem tuple_eq_some {members : List (Value H)} :
    gc.tuple id = some members ↔ gc id = some (.tuple members) := by
  cases h : gc id with
  | none => simp [tuple, h]
  | some object => cases object <;> simp [tuple, h]

theorem enumView_eq_some {value : EnumValueSnapshot H} :
    gc.enumView id = some value ↔ gc id = some (.enum value) := by
  cases h : gc id with
  | none => simp [enumView, h]
  | some object => cases object <;> simp [enumView, h]

variable (gc)

/-- The object of a handle and the kind it must have; a `GcHandle` admits any. -/
def expected : Value H → Option (H × Option GcObjectKind)
  | .unit | .bool _ | .char _ | .i32 _ | .i64 _ | .u64 _ | .f32 _ | .f64 _ | .runtimeEphemeral _ => none
  | .str id => some (id, some .string)
  | .tuple id => some (id, some .tuple)
  | .range id => some (id, some .range)
  | .hostRoot id => some (id, some .hostRoot)
  | .hostPathView id => some (id, some .hostPath)
  | .ephemeral id => some (id, some .ephemeral)
  | .array id => some (id, some .array)
  | .map id => some (id, some .map)
  | .set id => some (id, some .set)
  | .enum id => some (id, some .enum)
  | .struct id => some (id, some .struct)
  | .interface id => some (id, some .interface)
  | .closure id => some (id, some .closure)
  | .cell id => some (id, some .cell)
  | .gcHandle id => some (id, none)

def validateValue (value : Value H) : Bool :=
  match expected value with
  | none => true
  | some (id, kind) => (gc.objectKind id).any fun actual => kind.all (actual == ·)

end Heap

/-! ## Keys -/

inductive KeyPart where
  | unit
  | bool (value : Bool)
  | char (value : Char)
  | i32 (value : BitVec 32)
  | i64 (value : BitVec 64)
  | u64 (value : BitVec 64)
  | str (text : String)
  | tuple (length : Nat)
  | declaredEnum (owner : Nat) (declaration : DefinitionId) (arguments : List Ty) (variant : DefinitionId)
deriving DecidableEq

inductive KeyParts where
  | empty
  | single (part : KeyPart)
  | aggregate (parts : List KeyPart)

def KeyParts.asSlice : KeyParts → List KeyPart
  | .empty => []
  | .single part => [part]
  | .aggregate parts => parts

structure MapKey (H : Type) where
  parts : KeyParts
  value : Value H
  custom : Option (BitVec 64 × BitVec 64)

/-- `DefaultHasher` over a number and over a slice of parts. -/
structure KeyHasher where
  number : BitVec 64 → BitVec 64
  parts : List KeyPart → BitVec 64

namespace MapKey

variable {H : Type} (gc : Heap H)

def eq (a b : MapKey H) : Bool := a.custom == b.custom && a.parts.asSlice == b.parts.asSlice

def scriptHash (hasher : KeyHasher) (key : MapKey H) : BitVec 64 :=
  match key.custom with
  | some (hash, _) => hasher.number hash
  | none => hasher.parts key.parts.asSlice

/-- The part of a value that needs no traversal. -/
def single : Value H → Option (Option KeyPart)
  | .unit => some (some .unit)
  | .bool value => some (some (.bool value))
  | .char value => some (some (.char value))
  | .i32 value => some (some (.i32 value))
  | .i64 value => some (some (.i64 value))
  | .u64 value => some (some (.u64 value))
  | .str id => do return some (.str (← gc.string id))
  | _ => some none

def limit : Nat := 65536

/-- The parts a popped value pushes, and the members it leaves pending in their order. -/
def visit : Value H → Option (List KeyPart × List (Value H))
  | .unit => some ([.unit], [])
  | .bool value => some ([.bool value], [])
  | .char value => some ([.char value], [])
  | .i32 value => some ([.i32 value], [])
  | .i64 value => some ([.i64 value], [])
  | .u64 value => some ([.u64 value], [])
  | .str id => do return ([.str (← gc.string id)], [])
  | .tuple id => do
    let values ← gc.tuple id
    return ([.tuple values.length], values)
  | .enum id => do
    let snapshot ← gc.enumView id
    match snapshot.tag with
    | .declared r =>
      return ([.declaredEnum r.module.registryOwner r.layout.declaration r.layout.arguments
        r.variant.declaration, .tuple snapshot.fields.length], snapshot.fields)
  | _ => none

theorem visit_ne_nil {value : Value H} {parts : List KeyPart} {members : List (Value H)}
    (h : visit gc value = some (parts, members)) : parts ≠ [] := by
  cases value <;> simp only [visit, Option.bind_eq_bind, Option.bind_eq_some_iff, Option.pure_def,
    Option.some.injEq, Prod.mk.injEq, reduceCtorEq] at h <;> grind

/-- The loop over the pending values, the last one pushed first. -/
def fill (pending : List (Value H)) (parts : List KeyPart) : Option (List KeyPart) :=
  match pending with
  | [] => some parts
  | value :: rest =>
    if limit ≤ parts.length ∨ gc.validateValue value = false then none
    else
      match _h : visit gc value with
      | none => none
      | some (pushed, members) => fill (members ++ rest) (parts ++ pushed)
termination_by limit - parts.length
decreasing_by
  have := List.length_pos_iff.mpr (visit_ne_nil gc ‹_›)
  simp only [List.length_append]
  omega

def fromValue (value : Value H) : Option (MapKey H) := do
  if !gc.validateValue value then none
  else
    match ← single gc value with
    | some part => some ⟨.single part, value, none⟩
    | none => return ⟨.aggregate (← fill gc [value] []), value, none⟩

end MapKey

/-! ## Language equality -/

inductive RuntimeErrorKind where
  | cancelled | engineFault | scriptTrap | indexOutOfBounds | executionPhaseViolation
  | invalidReflectiveRead | invalidReflectiveWrite | expiredHostBorrow | hostBorrowConflict
  | hostBorrowEscape | hostCallFailure | typedPathValidation | moduleValidation
  | resourceLimitExceeded | metadataConflict | staleHandle
deriving DecidableEq

structure RuntimeError where
  kind : RuntimeErrorKind
  message : String
deriving DecidableEq

/-- The comparison of two floats by their bits: `NaN` is unequal to itself, and the zeros are equal. -/
def floatEqual {w : Nat} (exponent fraction : Nat) (a b : BitVec w) : Bool :=
  let nan (x : BitVec w) := (x.toNat / 2 ^ fraction % 2 ^ exponent == 2 ^ exponent - 1)
    && x.toNat % 2 ^ fraction != 0
  let zero (x : BitVec w) := x.toNat % 2 ^ (exponent + fraction) == 0
  !nan a && !nan b && (a == b || zero a && zero b)

/-- A category with no general equality. -/
def Value.incomparable {H : Type} : Value H → Bool
  | .array _ | .map _ | .set _ | .struct _ | .gcHandle _ | .closure _ | .interface _ | .hostRoot _
  | .hostPathView _ | .ephemeral _ | .runtimeEphemeral _ => true
  | _ => false

section Equality

variable {H : Type} (gc : Heap H)

def invalidHandle : RuntimeError := ⟨.scriptTrap, "invalid heap handle in equality"⟩

def unsupportedEquality : RuntimeError :=
  ⟨.scriptTrap, "value category does not support general equality"⟩

/-- The member loop: it stops at the first unequal pair and at the first error. -/
def pairsEqual (equal : Value H → Value H → Option (Except RuntimeError Bool)) :
    List (Value H × Value H) → Option (Except RuntimeError Bool)
  | [] => some (.ok true)
  | (lhs, rhs) :: rest => do
    match ← equal lhs rhs with
    | .error error => some (.error error)
    | .ok false => some (.ok false)
    | .ok true => pairsEqual equal rest

def membersEqual (equal : Value H → Value H → Option (Except RuntimeError Bool))
    (lhs rhs : List (Value H)) : Option (Except RuntimeError Bool) :=
  if lhs.length ≠ rhs.length then some (.ok false) else pairsEqual equal (lhs.zip rhs)

/-- The comparison of two valid values whose categories support it. -/
def comparableEqual (equal : Value H → Value H → Option (Except RuntimeError Bool)) :
    Value H → Value H → Option (Except RuntimeError Bool)
  | .unit, .unit => some (.ok true)
  | .bool a, .bool b => some (.ok (a == b))
  | .char a, .char b => some (.ok (a == b))
  | .i32 a, .i32 b => some (.ok (a == b))
  | .i64 a, .i64 b => some (.ok (a == b))
  | .u64 a, .u64 b => some (.ok (a == b))
  | .f32 a, .f32 b => some (.ok (floatEqual 8 23 a b))
  | .f64 a, .f64 b => some (.ok (floatEqual 11 52 a b))
  | .str a, .str b =>
    match gc.string a, gc.string b with
    | some a, some b => some (.ok (a == b))
    | _, _ => some (.error invalidHandle)
  | .tuple a, .tuple b =>
    match gc.tuple a, gc.tuple b with
    | some a, some b => membersEqual equal a b
    | _, _ => some (.error invalidHandle)
  | .enum a, .enum b =>
    match gc.enumView a, gc.enumView b with
    | some a, some b =>
      if a.tag.eq b.tag then membersEqual equal a.fields b.fields else some (.ok false)
    | _, _ => some (.error invalidHandle)
  | _, _ => some (.ok false)

def scriptEqual : Nat → Value H → Value H → Option (Except RuntimeError Bool)
  | 0, _, _ => none
  | fuel + 1, lhs, rhs =>
    if !gc.validateValue lhs || !gc.validateValue rhs then some (.error invalidHandle)
    else if lhs.incomparable || rhs.incomparable then some (.error unsupportedEquality)
    else comparableEqual gc (scriptEqual fuel) lhs rhs

/-- The call returns: some depth of recursion is enough. -/
def ScriptEqual (lhs rhs : Value H) (result : Except RuntimeError Bool) : Prop :=
  ∃ fuel, scriptEqual gc fuel lhs rhs = some result

end Equality

end Kagari.Runtime
