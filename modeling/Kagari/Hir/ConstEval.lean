import Kagari.Types.Conversion
import Kagari.Mir.Instruction

/-!
# Constant evaluation

`kagari-hir/src/typeck/const_eval.rs` with the scalar facts of `typeck/scalar.rs` and the budget of
`typeck/const_budget.rs`. The types, the facts and the name resolution of an expression are in its
nodes: `facts` holds what the tables of the type checker say of it. A cache, a `HashMap`, is a function.

The depth of the budget is the nesting of `enter` and `leave`; `room` is what is left of it,
`max_depth - depth`. Cancellation is left out.
-/

namespace Kagari.Hir

open Mir (Constant)

/-! ## Scalars -/

/-- A checked scalar fact; a float is its bits. -/
inductive ScalarValue where
  | unit
  | bool (value : Bool)
  | integer (value : Int) (ty : IntegerType)
  | f32 (bits : BitVec 32)
  | f64 (bits : BitVec 64)
  | string (value : String)
  | char (value : Char)
deriving DecidableEq

namespace ScalarValue

def ty : ScalarValue → BuiltinType
  | .unit => .unit
  | .bool _ => .bool
  | .integer _ ty => ty.builtinType
  | .f32 _ => .f32
  | .f64 _ => .f64
  | .string _ => .string
  | .char _ => .char

/-- `ScalarValue::integer`: the value is in the range of its type. -/
def ofInteger (value : Int) (ty : IntegerType) : Except String ScalarValue :=
  if inBounds ty.layout.1 ty.layout.2 value then .ok (.integer value ty)
  else .error "integer literal is outside the target type range"

def number : ScalarValue → Option Number
  | .bool value => some (.integer (if value then 1 else 0))
  | .integer value _ => some (.integer value)
  | .f32 bits => some (.f32 bits)
  | .f64 bits => some (.f64 bits)
  | .unit | .string _ | .char _ => none

def castNumeric (floats : FloatConversions) (value : ScalarValue) (target : BuiltinType) :
    Option ScalarValue := do
  if !value.ty.canCastTo target then none
  else
    let input ← value.number
    match input.cast floats (← target.numberType) with
    | .integer v => (ofInteger v (← IntegerType.fromBuiltin target)).toOption
    | .f32 bits => return .f32 bits
    | .f64 bits => return .f64 bits

/-- `lower_scalar`. -/
def lower : ScalarValue → Constant
  | .unit => .unit
  | .bool value => .bool value
  | .integer value ty =>
    match ty with
    | .i8 | .i16 | .i32 => .i32 (Int32.ofInt value)
    | .u64 => .u64 (UInt64.ofInt value)
    | .i64 | .u8 | .u16 | .u32 => .i64 (Int64.ofInt value)
  | .f32 bits => .f32 ⟨bits⟩
  | .f64 bits => .f64 ⟨bits⟩
  | .string value => .str value
  | .char value => .char value

end ScalarValue

/-! ## Expressions -/

abbrev ConstId := Nat

inductive PrefixOp where
  | neg | not
deriving DecidableEq

/-- The binary operators of the syntax. -/
inductive SourceOp where
  | add | sub | mul | div | rem
  | bitAnd | bitOr | bitXor | shl | shr
  | eq | notEq | lt | gt | le | ge
  | andAnd | orOr
deriving DecidableEq

/-- What the checker knows of an expression: its span, its type where that is builtin, and its value
where it is a literal. -/
structure Facts where
  span : Span
  ty : Option BuiltinType
  scalar : Option ScalarValue
deriving DecidableEq

inductive ConstExpr where
  /-- `()`. -/
  | unit (facts : Facts)
  | literal (facts : Facts)
  /-- A name, with the constant that it resolves to. -/
  | name (facts : Facts) (target : Option ConstId)
  | cast (facts : Facts) (operand : ConstExpr)
  | unary (facts : Facts) (op : PrefixOp) (operand : ConstExpr)
  | binary (facts : Facts) (op : SourceOp) (lhs rhs : ConstExpr)
  /-- Any other syntax. -/
  | other (facts : Facts)
deriving DecidableEq

def ConstExpr.facts : ConstExpr → Facts
  | .unit facts | .literal facts | .name facts _ | .cast facts _ | .unary facts _ _
  | .binary facts _ _ _ | .other facts => facts

/-- `CompileLimitExceeded` and `InvalidConstInitializer`. -/
inductive ConstDiagnostic where
  | limitExceeded (resource : String) (limit : Nat) (span : Span)
  | invalidInitializer (owner : ConstId) (reason : String) (span : Span)
deriving DecidableEq

structure ConstLimits where
  maxSteps : Nat
  maxDepth : Nat

structure Evaluator where
  /-- An inner none also breaks cycles. -/
  cache : ConstId → Option (Option ScalarValue)
  diagnostics : List ConstDiagnostic
  steps : Nat
  exhausted : Bool

/-! ## Operators -/

def SourceOp.bits : SourceOp → Option IntegerOp
  | .bitAnd => some .bitAnd
  | .bitOr => some .bitOr
  | .bitXor => some .bitXor
  | .shl => some .shl
  | .shr => some .shr
  | _ => none

def SourceOp.arithmetic : SourceOp → Option IntegerBinaryOp
  | .add => some .add
  | .sub => some .sub
  | .mul => some .mul
  | .div => some .div
  | .rem => some .rem
  | _ => none

def SourceOp.condition : SourceOp → Option Comparison
  | .eq => some .eq
  | .notEq => some .notEq
  | .lt => some .lt
  | .gt => some .gt
  | .le => some .le
  | .ge => some .ge
  | _ => none

def checkedOp : IntegerBinaryOp → IntegerOp
  | .add => .checkedAdd
  | .sub => .checkedSub
  | .mul => .checkedMul
  | .div => .checkedDiv
  | .rem => .checkedRem

def floatOp : IntegerBinaryOp → FloatOperation
  | .add => .add
  | .sub => .sub
  | .mul => .mul
  | .div => .div
  | .rem => .rem

def integerValue (op : IntegerOp) (lhs rhs : Int) (ty : IntegerType) : Except String ScalarValue := do
  let value ← integerOperation op lhs rhs ty.layout.1 ty.layout.2
  ScalarValue.ofInteger value ty

def scalarBits (op : IntegerOp) (lhs rhs : ScalarValue) : Option (Except String ScalarValue) :=
  match lhs, rhs with
  | .integer lhs ty, .integer rhs _ => some (integerValue op lhs rhs ty)
  | _, _ => none

def arithmetic (floats : Floats) (op : IntegerBinaryOp) (lhs rhs : ScalarValue) :
    Option (Except String ScalarValue) :=
  match lhs, rhs with
  | .f32 lhs, .f32 rhs => some (.ok (.f32 (floats.f32Binary (floatOp op) lhs rhs)))
  | .f64 lhs, .f64 rhs => some (.ok (.f64 (floats.f64Binary (floatOp op) lhs rhs)))
  | .integer lhs ty, .integer rhs right =>
    if ty = right then some (integerValue (checkedOp op) lhs rhs ty) else none
  | _, _ => none

/-- The comparisons and the logical operators. -/
def truth (floats : Floats) (op : SourceOp) (lhs rhs : ScalarValue) : Option Bool :=
  match lhs, rhs with
  | .unit, .unit =>
    match op with
    | .eq => some true
    | .notEq => some false
    | _ => none
  | .f32 lhs, .f32 rhs => op.condition.map fun condition => floats.f32Compare condition lhs rhs
  | .f64 lhs, .f64 rhs => op.condition.map fun condition => floats.f64Compare condition lhs rhs
  | .integer lhs ty, .integer rhs right =>
    if ty = right then op.condition.map fun condition => condition.test lhs rhs else none
  | .string lhs, .string rhs => op.condition.map fun condition => condition.test lhs rhs
  | .char lhs, .char rhs => op.condition.map fun condition => condition.test lhs.toNat rhs.toNat
  | .bool lhs, .bool rhs =>
    match op with
    | .eq => some (lhs == rhs)
    | .notEq => some (lhs != rhs)
    | .andAnd => some (lhs && rhs)
    | .orOr => some (lhs || rhs)
    | _ => none
  | _, _ => none

/-- `binary`; none where the operator has no meaning on the operands, an error where it fails. -/
def binary (floats : Floats) (op : SourceOp) (lhs rhs : ScalarValue) : Option (Except String ScalarValue) :=
  match op.bits, op.arithmetic with
  | some op, _ => scalarBits op lhs rhs
  | none, some op => arithmetic floats op lhs rhs
  | none, none => (truth floats op lhs rhs).map fun result => .ok (.bool result)

def unary (op : PrefixOp) (value : ScalarValue) : Option (Except String ScalarValue) :=
  match op, value with
  -- a negation flips the sign bit
  | .neg, .f32 value => some (.ok (.f32 (value ^^^ (1 <<< 31))))
  | .neg, .f64 value => some (.ok (.f64 (value ^^^ (1 <<< 63))))
  | .neg, .integer value ty => some (integerValue .checkedSub 0 value ty)
  | .not, .bool value => some (.ok (.bool !value))
  | .not, .integer value ty => some (integerValue .bitNot value 0 ty)
  | _, _ => none

/-- The left operand decides a logical operator. -/
def SourceOp.decided (op : SourceOp) (lhs : ScalarValue) : Bool :=
  match op, lhs with
  | .andAnd, .bool false => true
  | .orOr, .bool true => true
  | _, _ => false

/-! ## Evaluation -/

/-- The platform's floats, the limits and the constants of a module. -/
structure ConstModule where
  floats : Floats
  conversions : FloatConversions
  limits : ConstLimits
  initializer : ConstId → ConstExpr
  /-- The declared type. -/
  type : ConstId → BuiltinType

namespace Evaluator

variable (m : ConstModule)

/-- `ConstBudget::new`, after the steps of validation. -/
def new (steps : Nat) (exhausted : Bool) : Evaluator := ⟨fun _ => none, [], steps, exhausted⟩

/-- Charge one step and one level; the first exhausted limit is reported. -/
def enter (room : Nat) (span : Span) (s : Evaluator) : Bool × Evaluator :=
  if s.exhausted then (false, s)
  else
    let exceeded (resource : String) (limit : Nat) : Bool × Evaluator :=
      (false, { s with diagnostics := s.diagnostics ++ [.limitExceeded resource limit span], exhausted := true })
    if m.limits.maxSteps ≤ s.steps then exceeded "const steps" m.limits.maxSteps
    else if room = 0 then exceeded "const depth" m.limits.maxDepth
    else (true, { s with steps := s.steps + 1 })

def insert (id : ConstId) (value : Option ScalarValue) (s : Evaluator) : Evaluator :=
  { s with cache := fun other => if other = id then some value else s.cache other }

/-- The value of an operator; a failure is reported with its reason. -/
def report (owner : ConstId) (span : Span) (result : Option (Except String ScalarValue)) (s : Evaluator) :
    Option ScalarValue × Evaluator :=
  match result with
  | none => (none, s)
  | some (.ok value) => (some value, s)
  | some (.error reason) =>
    (none, { s with diagnostics := s.diagnostics ++ [.invalidInitializer owner reason span] })

/-- `constant`, over the evaluation of expressions. -/
def constantWith (expression : ConstId → ConstExpr → Evaluator → Option ScalarValue × Evaluator)
    (id : ConstId) (s : Evaluator) : Option ScalarValue × Evaluator :=
  match s.cache id with
  | some value => (value, s)
  | none =>
    let (value, s) := expression id (m.initializer id) (s.insert id none)
    (value, s.insert id value)

/-- `expression_inner`, over the evaluation of its operands. -/
def expressionInner (expression : ConstId → ConstExpr → Evaluator → Option ScalarValue × Evaluator)
    (owner : ConstId) (e : ConstExpr) (s : Evaluator) : Option ScalarValue × Evaluator :=
  match e.facts.scalar with
  | some value => (some value, s)
  | none =>
    match e with
    | .unit _ => (some .unit, s)
    -- invalid literals were diagnosed during checking
    | .literal _ => (none, s)
    | .name _ none => (none, s)
    | .name _ (some id) => constantWith m expression id s
    | .cast facts operand =>
      match facts.ty with
      | none => (none, s)
      | some target =>
        match expression owner operand s with
        | (none, s) => (none, s)
        | (some value, s) => (value.castNumeric m.conversions target, s)
    | .unary facts op operand =>
      match expression owner operand s with
      | (none, s) => (none, s)
      | (some value, s) => s.report owner facts.span (unary op value)
    | .binary facts op lhs rhs =>
      match expression owner lhs s with
      | (none, s) => (none, s)
      | (some left, s) =>
        if op.decided left then (some left, s)
        else
          match expression owner rhs s with
          | (none, s) => (none, s)
          | (some right, s) => s.report owner facts.span (binary m.floats op left right)
    | .other _ => (none, s)

/-- `expression`, with `room` levels left. -/
def expression (room : Nat) (owner : ConstId) (e : ConstExpr) (s : Evaluator) :
    Option ScalarValue × Evaluator :=
  match enter m room e.facts.span s with
  | (false, s) => (none, s)
  | (true, s) =>
    match room with
    | 0 => (none, s)
    | room + 1 => expressionInner m (expression room) owner e s

def constant (id : ConstId) (s : Evaluator) : Option ScalarValue × Evaluator :=
  constantWith m (expression m m.limits.maxDepth) id s

/-- The loop over the constants: an exhausted budget ends it. -/
def constants : List ConstId → Evaluator → Evaluator
  | [], s => s
  | id :: ids, s => if s.exhausted then s else constants ids (constant m id s).2

end Evaluator

/-- `evaluate_constants`, of constants in the given order: the values and what was reported. -/
def evaluateConstants (m : ConstModule) (ids : List ConstId) (steps : Nat) (exhausted : Bool) :
    (ConstId → Option ScalarValue) × Evaluator :=
  let s := Evaluator.constants m ids (.new steps exhausted)
  (fun id => (s.cache id).join, s)

end Kagari.Hir
