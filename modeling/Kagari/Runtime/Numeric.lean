import Kagari.Types.Conversion
import Kagari.Runtime.Keys
import Kagari.Mir.Interpreter

/-!
# Arithmetic of run-time values

The two ways in which the interpreter performs a scalar instruction. `Direct` takes the operands as
values (`kagari-runtime/src/numeric.rs`, `numeric/compare.rs`, and `kagari-vm/src/executor/value_ops.rs`
above them). `Prepared` selects an operation on payloads once
(`kagari-runtime/src/module/execution/scalar.rs`) and evaluates it
(`kagari-types/src/payload/operation.rs`).
-/

namespace Kagari.Runtime

open Mir (builtinRepresentation scalarType)

/-- The scalar instructions, without their slots. -/
inductive ScalarInstruction where
  | unary (op : UnaryOp)
  | binary (op : BinaryOp)
  | numeric (operation : NumericOperation)
  | convert (conversion : NumericConversion)
deriving DecidableEq

/-- `VmError`, as far as scalar instructions have one. -/
inductive VmError where
  | runtime (error : RuntimeError)
  | typeMismatch (message : String)
deriving DecidableEq

/-- The floats of the platform. -/
structure Platform where
  floats : Floats
  conversions : FloatConversions

def trap (message : String) : RuntimeError := ⟨.scriptTrap, message⟩

def arithmeticTrap (error : ArithmeticError) : RuntimeError := trap error.message

def moduleValidation (detail : String) : RuntimeError := ⟨.moduleValidation, "module validation failed: " ++ detail⟩

def resourceLimit (limit : String) : RuntimeError := ⟨.resourceLimitExceeded, "resource limit exceeded: " ++ limit⟩

section Direct

variable {H : Type}

def unary (op : UnaryOp) (value : Value H) : Except RuntimeError (Value H) :=
  match op, value with
  | .neg, .i32 value => ((i32Neg value.toInt).map fun v => .i32 (BitVec.ofInt 32 v)).mapError arithmeticTrap
  | .neg, .i64 value => ((i64Neg value.toInt).map fun v => .i64 (BitVec.ofInt 64 v)).mapError arithmeticTrap
  -- a negation flips the sign bit
  | .neg, .f32 value => .ok (.f32 (value ^^^ (1 <<< 31)))
  | .neg, .f64 value => .ok (.f64 (value ^^^ (1 <<< 63)))
  | .not, .bool value => .ok (.bool !value)
  | _, _ => .error (trap "invalid unary operand")

def readInteger (ty : BuiltinType) (value : Value H) : Except RuntimeError Int :=
  let fail := Except.error (trap "invalid numeric operand type or range")
  if !value.hasRepresentation (builtinRepresentation ty) then fail
  else
    let checked (value : Int) : Except RuntimeError Int :=
      match ty.integerLayout with
      | none => fail
      | some (bits, signed) => if inBounds bits signed value then .ok value else fail
    match value with
    | .i32 v => checked v.toInt
    | .i64 v => checked v.toInt
    | .u64 v => checked v.toNat
    | _ => fail

/-- The second operand of an operation; zero where it has none. -/
def readRight (ty : Option BuiltinType) (value : Option (Value H)) : Except RuntimeError Int :=
  match ty, value with
  | some ty, some value => readInteger ty value
  | none, none => .ok 0
  | _, _ => .error (trap "invalid numeric operand")

/-- The value of a result on payloads, in a representation. -/
def decodeResult (representation : ValueType) (result : Except String (BitVec 64)) (fail : RuntimeError) :
    Except RuntimeError (Value H) :=
  match result with
  | .error reason => .error (trap reason)
  | .ok bits =>
    match decode representation bits with
    | some value => .ok value
    | none => .error fail

/-- Execute the verified source-width contract, independently of the storage width. -/
def fixedInteger (floats : Floats) (operation : NumericOperation) (lhs : Value H) (rhs : Option (Value H)) :
    Except RuntimeError (Value H) := do
  let invalid := trap "invalid numeric operand"
  if operation.contract.isNone then throw invalid
  let lhs ← readInteger operation.input lhs
  let rhs ← readRight operation.rhs rhs
  match ScalarOperation.integerOf operation.op operation.input operation.rhs with
  | none => throw invalid
  | some selected =>
    -- the panic of `expect` is its text: an integer type has an integer representation
    decodeResult (builtinRepresentation operation.input)
      (selected.evaluate floats (integerPayload lhs) (integerPayload rhs)) (trap "integer result")

def BinaryOp.integer : BinaryOp → Option IntegerBinaryOp
  | .add => some .add
  | .sub => some .sub
  | .mul => some .mul
  | .div => some .div
  | .rem => some .rem
  | _ => none

def BinaryOp.float : BinaryOp → Option FloatOperation
  | .add => some .add
  | .sub => some .sub
  | .mul => some .mul
  | .div => some .div
  | .rem => some .rem
  | _ => none

def expectedArithmetic : RuntimeError := trap "expected arithmetic operation"

/-- `integer!`: one native width. -/
def integerKernel (op : BinaryOp) (kernel : IntegerBinaryOp → Int → Int → Except ArithmeticError Int)
    (lhs rhs : Int) (value : Int → Value H) : Except RuntimeError (Value H) :=
  match BinaryOp.integer op with
  | none => .error expectedArithmetic
  | some op => ((kernel op lhs rhs).map value).mapError arithmeticTrap

/-- Admit matching carriers once, then use the shared typed arithmetic owner. -/
def binary (floats : Floats) (op : BinaryOp) (lhs rhs : Value H) : Except RuntimeError (Value H) :=
  match op with
  | .numeric operation => fixedInteger floats operation lhs (some rhs)
  | op =>
    match lhs, rhs with
    | .i32 l, .i32 r => integerKernel op i32Binary l.toInt r.toInt fun v => .i32 (BitVec.ofInt 32 v)
    | .i64 l, .i64 r => integerKernel op i64Binary l.toInt r.toInt fun v => .i64 (BitVec.ofInt 64 v)
    | .u64 l, .u64 r => integerKernel op u64Binary l.toNat r.toNat fun v => .u64 (BitVec.ofInt 64 v)
    | .f32 l, .f32 r =>
      match BinaryOp.float op with
      | none => .error expectedArithmetic
      | some op => .ok (.f32 (floats.f32Binary op l r))
    | .f64 l, .f64 r =>
      match BinaryOp.float op with
      | none => .error expectedArithmetic
      | some op => .ok (.f64 (floats.f64Binary op l r))
    | _, _ => .error (trap "arithmetic requires matching numeric operands")

def BinaryOp.condition : BinaryOp → Option Comparison
  | .eq => some .eq
  | .notEq => some .notEq
  | .lt => some .lt
  | .le => some .le
  | .gt => some .gt
  | .ge => some .ge
  | _ => none

/-- `compare`, of an operator that is a comparison. -/
def compareWith (floats : Floats) (condition : Comparison) (lhs rhs : Value H) :
    Except RuntimeError (Value H) :=
  let equality := condition = .eq ∨ condition = .notEq
  match lhs, rhs with
  | .char a, .char b => .ok (.bool (condition.test a.toNat b.toNat))
  | .i32 a, .i32 b => .ok (.bool (condition.test a.toInt b.toInt))
  | .i64 a, .i64 b => .ok (.bool (condition.test a.toInt b.toInt))
  | .u64 a, .u64 b => .ok (.bool (condition.test a.toNat b.toNat))
  | .f32 a, .f32 b => .ok (.bool (floats.f32Compare condition a b))
  | .f64 a, .f64 b => .ok (.bool (floats.f64Compare condition a b))
  | .unit, .unit =>
    if equality then .ok (.bool (decide (condition = .eq)))
    else .error (moduleValidation "scalar comparison operands")
  | .bool a, .bool b =>
    if equality then .ok (.bool (decide ((a = b) ↔ condition = .eq)))
    else .error (moduleValidation "scalar comparison operands")
  | _, _ => .error (moduleValidation "scalar comparison operands")

/-- Execute a plain numeric or boolean operation without consulting the heap. -/
def scalarBinary (floats : Floats) (op : BinaryOp) (lhs rhs : Value H) : Except RuntimeError (Value H) :=
  match BinaryOp.condition op with
  | some condition => compareWith floats condition lhs rhs
  | none => binary floats op lhs rhs

def convert (conversions : FloatConversions) (conversion : NumericConversion) (value : Value H) :
    Except RuntimeError (Value H) := do
  let fail := trap "invalid numeric conversion"
  if conversion.contract.isNone then throw fail
  if !value.hasRepresentation (builtinRepresentation conversion.source) then throw fail
  match ConversionOperation.conversion conversion.source conversion.target, value.encode with
  | some selected, some payload =>
    decodeResult (builtinRepresentation conversion.target) (selected.evaluate conversions payload) fail
  | _, _ => throw fail

/-- `apply_binary`; none where the operator is not one of a scalar instruction, or where equality has
to look at members. -/
def applyBinary (platform : Platform) (gc : Heap H) (op : BinaryOp) (lhs rhs : Value H) :
    Option (Except VmError (Value H)) :=
  match op with
  | .numeric _ | .add | .sub | .mul | .div | .rem =>
    some ((binary platform.floats op lhs rhs).mapError .runtime)
  | .eq => (scriptEqual gc 1 lhs rhs).map fun equal => (equal.map .bool).mapError .runtime
  | .notEq => (scriptEqual gc 1 lhs rhs).map fun equal => (equal.map fun e => .bool !e).mapError .runtime
  | .lt => some ((scalarBinary platform.floats op lhs rhs).mapError fun _ =>
      .typeMismatch "lt expects matching numeric operands")
  | .gt => some ((scalarBinary platform.floats op lhs rhs).mapError fun _ =>
      .typeMismatch "gt expects matching numeric operands")
  | .le => some ((scalarBinary platform.floats op lhs rhs).mapError fun _ =>
      .typeMismatch "le expects matching numeric operands")
  | .ge => some ((scalarBinary platform.floats op lhs rhs).mapError fun _ =>
      .typeMismatch "ge expects matching numeric operands")
  | .identityEq | .identityNotEq | .andAnd | .orOr => none

/-- `dispatch_instruction`, of scalar instructions. -/
def dispatch (platform : Platform) (gc : Heap H) (instruction : ScalarInstruction)
    (operands : List (Value H)) : Option (Except VmError (Value H)) :=
  match instruction, operands with
  | .unary op, [value] => some ((unary op value).mapError .runtime)
  | .binary op, [lhs, rhs] => applyBinary platform gc op lhs rhs
  | .numeric operation, lhs :: rhs =>
    some ((fixedInteger platform.floats operation lhs rhs.head?).mapError .runtime)
  | .convert conversion, [value] => some ((convert platform.conversions conversion value).mapError .runtime)
  | _, _ => none

end Direct

section Prepared

variable {H : Type}

/-- The representation of the slot that holds a scalar. -/
def slotType : Value H → Option BuiltinType
  | .unit => some .unit
  | .bool _ => some .bool
  | .char _ => some .char
  | .i32 _ => some .i32
  | .i64 _ => some .i64
  | .u64 _ => some .u64
  | .f32 _ => some .f32
  | .f64 _ => some .f64
  | _ => none

/-- The operation on payloads and the representation of its result; the first operand is of the type
`input`. -/
def prepare (platform : Platform) (instruction : ScalarInstruction) (input : BuiltinType) :
    Option ((BitVec 64 → BitVec 64 → Except String (BitVec 64)) × ValueType) :=
  match instruction with
  | .binary (.numeric operation) =>
    (ScalarOperation.integerOf operation.op operation.input operation.rhs).map fun selected =>
      (selected.evaluate platform.floats, builtinRepresentation operation.input)
  | .binary op => do
    let op ← Mir.BinaryOp.scalar op
    let selected ← ScalarOperation.binary op input
    return (selected.evaluate platform.floats,
      if op.condition.isSome then .bool else builtinRepresentation input)
  | .numeric operation =>
    (ScalarOperation.integerOf operation.op operation.input operation.rhs).map fun selected =>
      (selected.evaluate platform.floats, builtinRepresentation operation.input)
  | .unary .neg =>
    (ScalarOperation.negation input).map fun selected =>
      (selected.evaluate platform.floats, builtinRepresentation input)
  | .unary .not => some (ScalarOperation.boolNot.evaluate platform.floats, .bool)
  | .convert conversion =>
    (ConversionOperation.conversion conversion.source conversion.target).map fun selected =>
      (fun lhs _ => selected.evaluate platform.conversions lhs, builtinRepresentation conversion.target)

/-- The result of a prepared operation, in the slot of its representation. -/
def storeResult (representation : ValueType) (result : Except String (BitVec 64)) :
    Option (Except VmError (Value H)) :=
  match result with
  | .error reason => some (.error (.runtime (trap reason)))
  | .ok bits => (decode representation bits).map .ok

/-- A prepared instruction, on the payloads of its slots. A missing second operand is the first. -/
def runPrepared (platform : Platform) (instruction : ScalarInstruction) (operands : List (Value H)) :
    Option (Except VmError (Value H)) := do
  let first ← operands.head?
  let input ← slotType first
  let (evaluate, representation) ← prepare platform instruction input
  let lhs ← first.encode
  let rhs ← ((operands[1]?).getD first).encode
  storeResult representation (evaluate lhs rhs)

end Prepared

/-- How the interpreter performs scalar instructions. -/
inductive Engine (H : Type) where
  | direct (gc : Heap H)
  | prepared

/-- The result of a scalar instruction. -/
def Engine.execute {H : Type} (engine : Engine H) (platform : Platform) (instruction : ScalarInstruction)
    (operands : List (Value H)) : Option (Except VmError (Value H)) :=
  match engine with
  | .direct gc => dispatch platform gc instruction operands
  | .prepared => runPrepared platform instruction operands

end Kagari.Runtime
