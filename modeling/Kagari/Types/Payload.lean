import Kagari.Types.Arithmetic

/-!
# Scalar payload operations

`kagari-types/src/payload.rs` with `payload/comparison.rs`, `payload/operation.rs`, its `select.rs`
and `payload/shared.rs`: the operations that prepared code performs on 64-bit payloads, and how one is
selected. The arithmetic of floats is the platform's, a parameter (`Floats`). The sixteen shift kinds
and the eight complements are one constructor each, with their domain. Numeric conversions are not
here.
-/

namespace Kagari

inductive ScalarBinaryOp where
  | add | sub | mul | div | rem | eq | notEq | lt | le | gt | ge
deriving DecidableEq

inductive Comparison where
  | eq | notEq | lt | le | gt | ge
deriving DecidableEq

inductive ComparisonDomain where
  | i32 | i64 | u64 | f32 | f64 | char | scalar
deriving DecidableEq

inductive FloatType where
  | f32 | f64
deriving DecidableEq

inductive FloatOperation where
  | add | sub | mul | div | rem
deriving DecidableEq

/-- The floats of the platform, on their bits. -/
structure Floats where
  f32Binary : FloatOperation → BitVec 32 → BitVec 32 → BitVec 32
  f64Binary : FloatOperation → BitVec 64 → BitVec 64 → BitVec 64
  f32Compare : Comparison → BitVec 32 → BitVec 32 → Bool
  f64Compare : Comparison → BitVec 64 → BitVec 64 → Bool

/-- Left shift domain and direction; the count has an independent integer domain. -/
structure ShiftKind where
  domain : IntegerType
  right : Bool
deriving DecidableEq

namespace ShiftKind

def new (domain : IntegerType) : IntegerOp → Option ShiftKind
  | .shl => some ⟨domain, false⟩
  | .shr => some ⟨domain, true⟩
  | _ => none

def parts (kind : ShiftKind) : IntegerType × IntegerOp :=
  (kind.domain, if kind.right then .shr else .shl)

end ShiftKind

inductive ScalarOperation where
  | integer (domain : IntegerType) (op : IntegerOp)
  | float (domain : FloatType) (op : FloatOperation)
  | shift (kind : ShiftKind) (countDomain : IntegerType)
  | compare (domain : ComparisonDomain) (condition : Comparison)
  | bitNot (domain : IntegerType)
  | i32Neg
  | i64Neg
  | f32Neg
  | f64Neg
  | boolNot
deriving DecidableEq

/-! ## Payloads -/

/-- `u64::from(bool)`. -/
def boolPayload (value : Bool) : BitVec 64 := if value then 1 else 0

def Comparison.test {α : Type} [LT α] [LE α] [DecidableEq α] [DecidableLT α] [DecidableLE α]
    (condition : Comparison) (lhs rhs : α) : Bool :=
  match condition with
  | .eq => decide (lhs = rhs)
  | .notEq => decide (lhs ≠ rhs)
  | .lt => decide (lhs < rhs)
  | .le => decide (lhs ≤ rhs)
  | .gt => decide (rhs < lhs)
  | .ge => decide (rhs ≤ lhs)

/-- The integer that a payload carries, in a domain. -/
def decodeIntegerDomain (payload : BitVec 64) (bits : Nat) (signed : Bool) : Except String Int :=
  let value : Int := if signed then payload.toInt else payload.toNat
  if inBounds bits signed value then .ok value else .error "invalid numeric operand type or range"

def decodeInteger (payload : BitVec 64) (domain : IntegerType) : Except String Int :=
  decodeIntegerDomain payload domain.layout.1 domain.layout.2

/-- `value as u64`. -/
def integerPayload (value : Int) : BitVec 64 := BitVec.ofInt 64 value

/-- `shared::integer`, and `integer_value` of a prepared binary operation. -/
def evaluateInteger (op : IntegerOp) (domain : IntegerType) (lhs rhs : BitVec 64) :
    Except String (BitVec 64) := do
  let left ← decodeInteger lhs domain
  let right ← decodeInteger rhs domain
  let value ← integerOperation op left right domain.layout.1 domain.layout.2
  return integerPayload value

/-- `integer_value` of a complement: the second operand is not read. -/
def evaluateBitNot (domain : IntegerType) (lhs : BitVec 64) : Except String (BitVec 64) := do
  let left ← decodeInteger lhs domain
  let value ← integerOperation .bitNot left 0 domain.layout.1 domain.layout.2
  return integerPayload value

/-- `shared::shift`. -/
def evaluateShift (kind : ShiftKind) (countDomain : IntegerType) (lhs rhs : BitVec 64) :
    Except String (BitVec 64) := do
  let left ← decodeInteger lhs kind.parts.1
  let right ← decodeInteger rhs countDomain
  let value ← integerOperation kind.parts.2 left right kind.parts.1.layout.1 kind.parts.1.layout.2
  return integerPayload value

def evaluateFloat (floats : Floats) (op : FloatOperation) (domain : FloatType) (lhs rhs : BitVec 64) :
    BitVec 64 :=
  match domain with
  | .f32 => (floats.f32Binary op (lhs.setWidth 32) (rhs.setWidth 32)).setWidth 64
  | .f64 => floats.f64Binary op lhs rhs

/-- Both payloads are Unicode scalar values. -/
def unicodePayload (payload : BitVec 64) : Bool := decide payload.toNat.isValidChar

def ComparisonDomain.evaluate (floats : Floats) (domain : ComparisonDomain) (condition : Comparison)
    (lhs rhs : BitVec 64) : Except String (BitVec 64) :=
  let integers (ty : IntegerType) : Except String (BitVec 64) := do
    let left ← decodeInteger lhs ty
    let right ← decodeInteger rhs ty
    return boolPayload (condition.test left right)
  match domain with
  | .i32 => integers .i32
  | .i64 => integers .i64
  | .u64 => integers .u64
  | .f32 => .ok (boolPayload (floats.f32Compare condition (lhs.setWidth 32) (rhs.setWidth 32)))
  | .f64 => .ok (boolPayload (floats.f64Compare condition lhs rhs))
  | .char =>
    if unicodePayload lhs && unicodePayload rhs then
      .ok (boolPayload (condition.test lhs.toNat rhs.toNat))
    else .error "invalid Unicode scalar operand"
  | .scalar => .ok (boolPayload (condition.test lhs.toNat rhs.toNat))

namespace ScalarOperation

/-- Evaluate complete carriers using the same semantics as prepared handlers. -/
def evaluate (floats : Floats) (operation : ScalarOperation) (lhs rhs : BitVec 64) :
    Except String (BitVec 64) :=
  match operation with
  | .integer domain op => evaluateInteger op domain lhs rhs
  | .float domain op => .ok (evaluateFloat floats op domain lhs rhs)
  | .shift kind countDomain => evaluateShift kind countDomain lhs rhs
  | .compare domain condition => domain.evaluate floats condition lhs rhs
  | .bitNot domain => evaluateBitNot domain lhs
  -- `negate_integer`: zero minus the operand
  | .i32Neg => evaluateInteger .checkedSub .i32 0 lhs
  | .i64Neg => evaluateInteger .checkedSub .i64 0 lhs
  -- `negate_float`: the sign bit
  | .f32Neg => .ok (lhs ^^^ (1 <<< 31))
  | .f64Neg => .ok (lhs ^^^ (1 <<< 63))
  | .boolNot => .ok (boolPayload (decide (lhs = 0)))

/-! ## Selection -/

def integerOf (op : IntegerOp) (input : BuiltinType) (rhs : Option BuiltinType) :
    Option ScalarOperation := do
  let domain ← IntegerType.fromBuiltin input
  match op with
  | .shl | .shr => do
    let kind ← ShiftKind.new domain op
    let count ← rhs
    let countDomain ← IntegerType.fromBuiltin count
    return .shift kind countDomain
  | .bitNot => return .bitNot domain
  | _ => return .integer domain op

end ScalarOperation

def ScalarBinaryOp.condition : ScalarBinaryOp → Option Comparison
  | .eq => some .eq
  | .notEq => some .notEq
  | .lt => some .lt
  | .le => some .le
  | .gt => some .gt
  | .ge => some .ge
  | .add | .sub | .mul | .div | .rem => none

def ScalarBinaryOp.integer : ScalarBinaryOp → Option IntegerOp
  | .add => some .checkedAdd
  | .sub => some .checkedSub
  | .mul => some .checkedMul
  | .div => some .checkedDiv
  | .rem => some .checkedRem
  | .eq | .notEq | .lt | .le | .gt | .ge => none

def ScalarBinaryOp.float : ScalarBinaryOp → Option FloatOperation
  | .add => some .add
  | .sub => some .sub
  | .mul => some .mul
  | .div => some .div
  | .rem => some .rem
  | .eq | .notEq | .lt | .le | .gt | .ge => none

/-- The comparisons that a representation has: units and booleans are only equal or different. -/
def ComparisonDomain.of (input : BuiltinType) (condition : Comparison) : Option ComparisonDomain :=
  match input with
  | .i32 => some .i32
  | .i64 => some .i64
  | .u64 => some .u64
  | .f32 => some .f32
  | .f64 => some .f64
  | .char => some .char
  | .bool | .unit => if condition = .eq ∨ condition = .notEq then some .scalar else none
  | _ => none

def FloatType.fromBuiltin : BuiltinType → Option FloatType
  | .f32 => some .f32
  | .f64 => some .f64
  | _ => none

namespace ScalarOperation

def binary (op : ScalarBinaryOp) (input : BuiltinType) : Option ScalarOperation :=
  match op.condition with
  | some condition => (ComparisonDomain.of input condition).map fun domain => .compare domain condition
  | none =>
    if input = .i32 ∨ input = .i64 ∨ input = .u64 then do
      let op ← op.integer
      integerOf op input (some input)
    else do
      let domain ← FloatType.fromBuiltin input
      let op ← op.float
      return .float domain op

def negation : BuiltinType → Option ScalarOperation
  | .i32 => some .i32Neg
  | .i64 => some .i64Neg
  | .f32 => some .f32Neg
  | .f64 => some .f64Neg
  | _ => none

end ScalarOperation

end Kagari
