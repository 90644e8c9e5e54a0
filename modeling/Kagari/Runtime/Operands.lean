import Mathlib.Algebra.Ring.Int.Defs
import Mathlib.Algebra.Ring.Nat
import Kagari.Contract.Operations

/-!
# Operands of a frame

Run-time values and their scalar payloads (`kagari-runtime/src/value.rs`, `value/scalar.rs`), the
location of an operand in the two banks of a window (`module/execution/layout.rs`), and the checked
reads and writes of one window's banks (`frame/values/operands.rs`).

A float is its bits. The scalar bank has a payload and a mark for each slot: the two lists of a window
have one length.
-/

namespace Kagari.Runtime

/-- `Value`, over the identities of heap objects. -/
inductive Value (H : Type) where
  | unit
  | bool (value : Bool)
  | char (value : Char)
  | i32 (value : BitVec 32)
  | i64 (value : BitVec 64)
  | u64 (value : BitVec 64)
  | f32 (value : BitVec 32)
  | f64 (value : BitVec 64)
  | str (id : H)
  | tuple (id : H)
  | range (id : H)
  | array (id : H)
  | map (id : H)
  | set (id : H)
  | enum (id : H)
  | struct (id : H)
  | gcHandle (id : H)
  | interface (id : H)
  | closure (id : H)
  | cell (id : H)
  | hostRoot (id : H)
  | hostPathView (id : H)
  | ephemeral (id : H)
  | runtimeEphemeral (id : Nat)
deriving DecidableEq

/-- `integer_bounds`. -/
def integerBounds : BuiltinType → Option (Int × Int)
  | .i8 => some (-2 ^ 7, 2 ^ 7 - 1)
  | .i16 => some (-2 ^ 15, 2 ^ 15 - 1)
  | .i32 => some (-2 ^ 31, 2 ^ 31 - 1)
  | .i64 => some (-2 ^ 63, 2 ^ 63 - 1)
  | .u8 => some (0, 2 ^ 8 - 1)
  | .u16 => some (0, 2 ^ 16 - 1)
  | .u32 => some (0, 2 ^ 32 - 1)
  | .u64 => some (0, 2 ^ 64 - 1)
  | .never | .unit | .bool | .f32 | .f64 | .string | .char => none

/-- `decode_char`: the bits of a Unicode scalar value. -/
def decodeChar (bits : BitVec 64) : Option Char :=
  if h : bits.toNat.isValidChar then some (Char.ofNatAux bits.toNat h) else none

def decode {H : Type} : ValueType → BitVec 64 → Option (Value H)
  | .unit, _ => some .unit
  | .bool, bits => if bits.toNat ≤ 1 then some (.bool (bits.toNat ≠ 0)) else none
  | .char, bits => (decodeChar bits).map .char
  | .i32, bits => some (.i32 (bits.setWidth 32))
  | .i64, bits => some (.i64 bits)
  | .u64, bits => some (.u64 bits)
  | .f32, bits => some (.f32 (bits.setWidth 32))
  | .f64, bits => some (.f64 bits)
  | .never, _ | .str, _ | .heapObject, _ | .hostHandle, _ | .generic, _ => none

/-- `scalar::admits_payload`. -/
def admitsBits (representation : ValueType) (semantic : Option BuiltinType) (bits : BitVec 64) : Bool :=
  if representation = .char ∨ semantic = some .char then
    decide (representation = .char) && semantic.all (fun ty => decide (ty = .char)) &&
      (decodeChar bits).isSome
  else if representation = .bool ∧ 1 < bits.toNat then false
  else
    match semantic.bind integerBounds with
    | none => true
    | some (min, max) =>
      match representation with
      | .i32 | .i64 => decide (min ≤ bits.toInt ∧ bits.toInt ≤ max)
      | .u64 => decide (min ≤ (bits.toNat : Int) ∧ (bits.toNat : Int) ≤ max)
      | _ => false

namespace Value

variable {H : Type}

def encode : Value H → Option (BitVec 64)
  | .unit => some 0
  | .bool value => some (if value then 1 else 0)
  | .char value => some (BitVec.ofNat 64 value.toNat)
  | .i32 value => some (value.signExtend 64)
  | .i64 value => some value
  | .u64 value => some value
  | .f32 value => some (value.setWidth 64)
  | .f64 value => some value
  | _ => none

def isEphemeral : Value H → Bool
  | .ephemeral _ | .runtimeEphemeral _ => true
  | _ => false

def hasRepresentation (value : Value H) (ty : ValueType) : Bool :=
  if ty = .generic then !value.isEphemeral
  else
    match value, ty with
    | .unit, .unit | .bool _, .bool | .char _, .char | .i32 _, .i32 | .i64 _, .i64 | .u64 _, .u64
    | .f32 _, .f32 | .f64 _, .f64 | .str _, .str => true
    | .hostRoot _, .hostHandle | .hostPathView _, .hostHandle | .ephemeral _, .hostHandle => true
    | .range _, .heapObject | .tuple _, .heapObject | .array _, .heapObject | .map _, .heapObject
    | .set _, .heapObject | .enum _, .heapObject | .struct _, .heapObject | .gcHandle _, .heapObject
    | .interface _, .heapObject | .closure _, .heapObject | .cell _, .heapObject => true
    | _, _ => false

end Value

/-- `OperandSlot`: an offset of 31 bits and the bank. -/
structure OperandSlot where
  index : Nat
  managed : Bool
deriving DecidableEq

/-- `OperandSlot::new`: the bit above the offset is the bank. -/
def OperandSlot.new (index : Nat) (managed : Bool) : OperandSlot :=
  ⟨index % 2 ^ 31, managed || decide (index / 2 ^ 31 % 2 = 1)⟩

def OperandSlot.scalar (slot : OperandSlot) : Option Nat := if slot.managed then none else some slot.index

structure Location where
  operand : OperandSlot
  representation : ValueType
  semantic : Option BuiltinType
  borrowedReceiver : Bool
deriving DecidableEq

namespace Location

variable {H : Type} (location : Location)

def admitsPayload (representation : ValueType) (bits : BitVec 64) : Bool :=
  if location.operand.managed ∨ location.representation ≠ representation then false
  else admitsBits representation location.semantic bits

/-- A scoped view, admitted by a borrowed receiver. -/
def admitsView : Value H → Bool
  | .ephemeral _ | .hostPathView _ => location.borrowedReceiver && location.operand.managed
  | _ => false

def admits (value : Value H) : Bool :=
  if location.admitsView value then true
  else if !value.hasRepresentation location.representation then false
  else if location.operand.managed then true
  else value.encode.any fun bits => admitsBits location.representation location.semantic bits

end Location

/-- `OperandWindow`: the banks of one window. -/
structure OperandWindow (H : Type) where
  managed : List (Value H)
  payloads : List (BitVec 64)
  initialized : List Bool

namespace OperandWindow

variable {H : Type} (window : OperandWindow H) (location : Location)

/-- `read_operand`: a scalar that was not written reads as unit. -/
def read : Option (Value H) :=
  if location.operand.managed then window.managed[location.operand.index]?
  else
    match window.initialized[location.operand.index]? with
    | none => none
    | some false => some .unit
    | some true => window.payloads[location.operand.index]?.bind (decode location.representation)

/-- `write_operand`. -/
def write (value : Value H) : Option (OperandWindow H) :=
  if !location.admits value then none
  else if location.operand.managed then
    if location.operand.index < window.managed.length then
      some { window with managed := window.managed.set location.operand.index value }
    else none
  else
    match value.encode with
    | none => none
    | some bits =>
      if location.operand.index < window.payloads.length ∧
          location.operand.index < window.initialized.length then
        some { window with
          payloads := window.payloads.set location.operand.index bits
          initialized := window.initialized.set location.operand.index true }
      else none

/-- The payload of a scalar slot that was written. -/
def payload (slot : Nat) : Option (BitVec 64) :=
  match window.initialized[slot]? with
  | some true => window.payloads[slot]?
  | _ => none

def writePayload (slot : Nat) (bits : BitVec 64) : Option (OperandWindow H) :=
  if slot < window.payloads.length ∧ slot < window.initialized.length then
    some { window with
      payloads := window.payloads.set slot bits
      initialized := window.initialized.set slot true }
  else none

/-- `set_scalar_location`, of one window. -/
def writeScalar (representation : ValueType) (bits : BitVec 64) : Option (OperandWindow H) :=
  if location.operand.managed then (decode representation bits).bind (window.write location)
  else if !location.admitsPayload representation bits then none
  else location.operand.scalar.bind fun slot => window.writePayload slot bits

/-- `retain_managed`, of one window: a value whose bit is not set becomes unit. -/
def retain (retained : List (BitVec 64)) : Option (OperandWindow H) :=
  if retained.length ≠ (window.managed.length + 63) / 64 then none
  else some { window with managed := window.managed.mapIdx fun index value =>
    if (retained.getD (index / 64) 0).getLsbD (index % 64) then value else .unit }

/-- A new window. -/
def blank (scalarCount managedCount : Nat) : OperandWindow H :=
  ⟨List.replicate managedCount .unit, List.replicate scalarCount 0, List.replicate scalarCount false⟩

end OperandWindow

end Kagari.Runtime
