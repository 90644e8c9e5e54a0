import Kagari.Contract.Numeric
import Kagari.Mir.Copies
import Kagari.Mir.Verify

/-!
# Folding of constants

`kagari-mir/src/passes/scalar.rs` and `passes/constants.rs`: within a block, instructions whose
operands are known are replaced by their value, and a branch on a known condition by a jump. The table
of known values, a `Vec` over the temporaries, is a function.
-/

namespace Kagari.Mir

/-- Copyable, bounded facts. -/
inductive Scalar where
  | unit
  | bool (value : Bool)
  | i32 (value : Int32)
  | i64 (value : Int64)
  | u64 (value : UInt64)
  | char (value : Char)
deriving DecidableEq

namespace Scalar

def fromConstant : Constant → Option Scalar
  | .unit => some .unit
  | .bool value => some (.bool value)
  | .i32 value => some (.i32 value)
  | .i64 value => some (.i64 value)
  | .u64 value => some (.u64 value)
  | .char value => some (.char value)
  | .f32 _ | .f64 _ | .str _ => none

def constant : Scalar → Constant
  | .unit => .unit
  | .bool value => .bool value
  | .i32 value => .i32 value
  | .i64 value => .i64 value
  | .u64 value => .u64 value
  | .char value => .char value

def integer : Scalar → Option Int
  | .i32 value => some value.toInt
  | .i64 value => some value.toInt
  | .u64 value => some value.toNat
  | .unit | .bool _ | .char _ => none

/-- The value is in the domain of a semantic type. -/
def fits (scalar : Scalar) (ty : Option Ty) : Bool :=
  match ty, scalar.integer with
  | some (.builtin kind), some value =>
    kind.integerLayout.all fun (bits, signed) => inBounds bits signed value
  | _, _ => true

def unary (scalar : Scalar) (op : UnaryOp) : Option Scalar :=
  match op, scalar with
  | .not, .bool value => some (.bool !value)
  | .neg, .i32 value => (i32Neg value.toInt).toOption.map fun v => .i32 (Int32.ofInt v)
  | .neg, .i64 value => (i64Neg value.toInt).toOption.map fun v => .i64 (Int64.ofInt v)
  | _, _ => none

/-- The representation of an integer scalar. -/
def representation : Scalar → Option ValueType
  | .i32 _ => some .i32
  | .i64 _ => some .i64
  | .u64 _ => some .u64
  | .unit | .bool _ | .char _ => none

def readInteger (scalar : Scalar) (kind : BuiltinType) : Option Int := do
  let representation ← scalar.representation
  if representation ≠ builtinRepresentation kind then none
  else do
    let value ← scalar.integer
    let (bits, signed) ← kind.integerLayout
    if inBounds bits signed value then some value else none

/-- `try_into` the representation of a type. -/
def ofInteger (representation : ValueType) (value : Int) : Option Scalar :=
  match representation with
  | .i32 => if inBounds 32 true value then some (.i32 (Int32.ofInt value)) else none
  | .i64 => if inBounds 64 true value then some (.i64 (Int64.ofInt value)) else none
  | .u64 => if inBounds 64 false value then some (.u64 (UInt64.ofNat value.toNat)) else none
  | _ => none

/-- The second operand of a numeric operation; zero where it has none. -/
def readRight : Option BuiltinType → Option Scalar → Option Int
  | some kind, some rhs => rhs.readInteger kind
  | none, none => some 0
  | _, _ => none

def numeric (scalar : Scalar) (operation : NumericOperation) (rhs : Option Scalar) : Option Scalar := do
  let _ ← operation.contract
  let left ← scalar.readInteger operation.input
  let right ← readRight operation.rhs rhs
  let (bits, signed) ← operation.input.integerLayout
  let result ← (integerOperation operation.op left right bits signed).toOption
  ofInteger (builtinRepresentation operation.input) result

/-- The order of two scalars of one kind. -/
def comparison : Scalar → Scalar → Option Ordering
  | .unit, .unit => some .eq
  | .bool a, .bool b => some (compare a b)
  | .i32 a, .i32 b => some (compare a.toInt b.toInt)
  | .i64 a, .i64 b => some (compare a.toInt b.toInt)
  | .u64 a, .u64 b => some (compare a.toNat b.toNat)
  | .char a, .char b => some (compare a.toNat b.toNat)
  | _, _ => none

def condition (op : BinaryOp) (comparison : Ordering) : Option Bool :=
  match op with
  | .eq => some (comparison == .eq)
  | .notEq => some (comparison != .eq)
  | .lt => some (comparison == .lt)
  | .gt => some (comparison == .gt)
  | .le => some (comparison != .gt)
  | .ge => some (comparison != .lt)
  | _ => none

def arithmetic : BinaryOp → Option IntegerBinaryOp
  | .add => some .add
  | .sub => some .sub
  | .mul => some .mul
  | .div => some .div
  | .rem => some .rem
  | _ => none

/-- The typed operation of an unsigned one. -/
def checkedOp : IntegerBinaryOp → IntegerOp
  | .add => .checkedAdd
  | .sub => .checkedSub
  | .mul => .checkedMul
  | .div => .checkedDiv
  | .rem => .checkedRem

/-- Arithmetic on two integers of one representation. -/
def native (scalar rhs : Scalar) (arithmetic : IntegerBinaryOp) : Option Scalar :=
  match scalar, rhs with
  | .i32 a, .i32 b =>
    (i32Binary arithmetic a.toInt b.toInt).toOption.map fun v => .i32 (Int32.ofInt v)
  | .i64 a, .i64 b =>
    (i64Binary arithmetic a.toInt b.toInt).toOption.map fun v => .i64 (Int64.ofInt v)
  | .u64 a, .u64 b =>
    (Scalar.u64 a).numeric ⟨checkedOp arithmetic, .u64, some .u64⟩ (some (.u64 b))
  | _, _ => none

/-- An operation on two scalars of one kind. -/
def plain (scalar : Scalar) (op : BinaryOp) (rhs : Scalar) : Option Scalar := do
  let ordering ← scalar.comparison rhs
  match condition op ordering with
  | some holds => some (.bool holds)
  | none => (arithmetic op).bind (scalar.native rhs)

def binary (scalar : Scalar) (op : BinaryOp) (rhs : Scalar) : Option Scalar :=
  match op with
  | .numeric operation => scalar.numeric operation (some rhs)
  | _ => scalar.plain op rhs

end Scalar

namespace Constants

/-- What is known of the temporaries. -/
abbrev Values := TempId → Option Scalar

section Simplify

variable {P : Type} (f : MirFunction P)

def evaluate (i : Instruction P) (values : Values) : Option Scalar :=
  match i with
  | .loadConst _ constant => Scalar.fromConstant constant
  | .move _ src => values src.temp
  | .unary _ op operand => (values operand.temp).bind (·.unary op)
  | .binary _ op lhs rhs => do
    let left ← values lhs.temp
    let right ← values rhs.temp
    left.binary op right
  | .numeric _ operation lhs rhs => do
    let left ← values lhs.temp
    match rhs with
    | some rhs => (values rhs.temp).bind fun right => left.numeric operation (some right)
    | none => left.numeric operation none
  | _ => none

def isLoadConst : Instruction P → Bool
  | .loadConst _ _ => true
  | _ => false

/-- The value of an instruction, when its destination may hold it. -/
def known (i : Instruction P) (values : Values) : Option Scalar :=
  i.output.bind fun dst => (evaluate i values).filter (·.fits (f.registerType dst.temp))

/-- The instruction, or its value in its place. -/
def folded (i : Instruction P) (values : Values) : Instruction P :=
  match i.output, known f i values with
  | some dst, some value =>
    if isLoadConst i then i else .loadConst dst value.constant
  | _, _ => i

/-- What is known after an instruction; nothing after a call. -/
def learned (i : Instruction P) (values : Values) : Values :=
  if (folded f i values).effects.calls then fun _ => none
  else i.output.elim values fun dst => Function.update values dst.temp (known f i values)

/-- The instruction was replaced. -/
def counts (i : Instruction P) (values : Values) : Bool :=
  (known f i values).isSome && !isLoadConst i

/-- Forgetting is charged as well. -/
def chargeFill (i : Instruction P) : PassM Unit :=
  if i.effects.calls then Work.charge f.temps.length else return ()

def foldInstructions : List (Instruction P) → Values → PassStatistics →
    PassM (List (Instruction P) × Values × PassStatistics)
  | [], values, statistics => return ([], values, statistics)
  | i :: code, values, statistics => do
    Work.charge 1
    chargeFill f (folded f i values)
    let (rest, last, statistics) ← foldInstructions code (learned f i values)
      (if counts f i values then
        { statistics with constantsFolded := statistics.constantsFolded + 1 } else statistics)
    return (folded f i values :: rest, last, statistics)

/-- A branch on a known condition is a jump. -/
def foldTerminator (terminator : Option Terminator) (values : Values) : Option Terminator :=
  match terminator with
  | some (.branch cond thenBlock elseBlock) =>
    match values cond.temp with
    | some (.bool condition) => some (.jump (if condition then thenBlock else elseBlock))
    | _ => terminator
  | _ => terminator

def foldBlocks : List (BasicBlock P) → PassStatistics → PassM (List (BasicBlock P) × PassStatistics)
  | [], statistics => return ([], statistics)
  | block :: blocks, statistics => do
    Work.charge f.temps.length
    let (instructions, values, statistics) ←
      foldInstructions f block.instructions (fun _ => none) statistics
    Work.charge 1
    let terminator := foldTerminator block.terminator values
    let (rest, statistics) ← foldBlocks blocks
      (if terminator ≠ block.terminator then
        { statistics with branchesSimplified := statistics.branchesSimplified + 1 } else statistics)
    return ({ block with instructions, terminator } :: rest, statistics)

end Simplify

/-- `constants::simplify`: the functions of a module, one after another. -/
def simplify {P : Type} : List (MirFunction P) → PassStatistics →
    PassM (List (MirFunction P) × PassStatistics)
  | [], statistics => return ([], statistics)
  | f :: functions, statistics => do
    let (blocks, statistics) ← foldBlocks f f.blocks statistics
    let (rest, statistics) ← simplify functions statistics
    return ({ f with blocks } :: rest, statistics)

end Constants

end Kagari.Mir
