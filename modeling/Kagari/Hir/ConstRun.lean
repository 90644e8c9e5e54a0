import Kagari.Hir.ConstEval
import Kagari.Runtime.Numeric

/-!
# Execution of constant expressions

What the interpreter does with an expression over scalars: the code that lowering emits for each node
(`kagari-compiler/src/source/lower/expr.rs`, `lower/expr/operators.rs`, the plans of
`lower/instances/methods.rs` and `elaborate/build/expr.rs`), performed instruction by instruction.
An expression with a scalar fact is a constant; a name of a constant stands for its initializer; the
logical operators are branches. `none` is code that lowering does not emit.

`runAt n` follows names through at most `n` initializers; `Runs` says that some number is enough.
-/

namespace Kagari.Hir

open Kagari.Runtime

section Lowered

variable {H : Type}

/-- Continue with the value of a run that did not stop. -/
def andThen {ε α β : Type} (run : Option (Except ε α)) (next : α → Option (Except ε β)) :
    Option (Except ε β) :=
  match run with
  | none => none
  | some (.error e) => some (.error e)
  | some (.ok value) => next value

/-- The value that a constant loads. -/
def load (text : String → H) : Mir.Constant → Value H
  | .unit => .unit
  | .bool value => .bool value
  | .i32 value => .i32 value.toBitVec
  | .i64 value => .i64 value.toBitVec
  | .u64 value => .u64 value.toBitVec
  | .f32 bits => .f32 bits.toBitVec
  | .f64 bits => .f64 bits.toBitVec
  | .str value => .str (text value)
  | .char value => .char value

/-- The representation of an integer type below 32 bits or unsigned below 64 bits holds more than the
type: its arithmetic is numeric. -/
def narrowInteger (ty : BuiltinType) : Bool :=
  match ty with
  | .i8 | .i16 | .u8 | .u16 | .u32 => true
  | _ => false

def arithmeticOp : IntegerBinaryOp → BinaryOp
  | .add => .add
  | .sub => .sub
  | .mul => .mul
  | .div => .div
  | .rem => .rem

def comparisonOp : Comparison → BinaryOp
  | .eq => .eq
  | .notEq => .notEq
  | .lt => .lt
  | .le => .le
  | .gt => .gt
  | .ge => .ge

variable (execute : ScalarInstruction → List (Value H) → Option (Except VmError (Value H)))

/-- A prefix operator on an operand of a type. -/
def runUnary (op : PrefixOp) (input : BuiltinType) (value : Value H) : Option (Except VmError (Value H)) :=
  match op with
  | .neg =>
    -- `NegateSmallInteger`
    if input = .i8 ∨ input = .i16 then
      execute (.numeric ⟨.checkedSub, input, some input⟩) [.i32 0, value]
    else execute (.unary .neg) [value]
  | .not =>
    if input.integerLayout.isSome then execute (.numeric ⟨.bitNot, input, none⟩) [value]
    else execute (.unary .not) [value]

/-- A binary operator other than a logical one, on operands of two types. -/
def runBinary (op : SourceOp) (left right : BuiltinType) (lhs rhs : Value H) :
    Option (Except VmError (Value H)) :=
  match op.bits, op.arithmetic, op.condition with
  | some op, _, _ => execute (.numeric ⟨op, left, some right⟩) [lhs, rhs]
  | none, some op, _ =>
    if narrowInteger left then execute (.numeric ⟨checkedOp op, left, some left⟩) [lhs, rhs]
    else execute (.binary (arithmeticOp op)) [lhs, rhs]
  | none, none, some .notEq =>
    andThen (execute (.binary .eq) [lhs, rhs]) fun equal => execute (.unary .not) [equal]
  | none, none, some condition => execute (.binary (comparisonOp condition)) [lhs, rhs]
  | none, none, none => none

/-- After this left operand the right one is run: a logical operator may be decided by the left one. -/
def goesOn (op : SourceOp) (lhs : Value H) : Bool :=
  match op, lhs with
  | .andAnd, .bool value => value
  | .orOr, .bool value => !value
  | .andAnd, _ | .orOr, _ => false
  | _, _ => true

/-- A logical operator branches on its left operand. -/
def runLogical (op : SourceOp) (lhs : Value H) (rhs : Option (Except VmError (Value H))) :
    Option (Except VmError (Value H)) :=
  match lhs with
  | .bool value => if goesOn op lhs then rhs else some (.ok (.bool value))
  | _ => none

def SourceOp.logical : SourceOp → Bool
  | .andAnd | .orOr => true
  | _ => false

end Lowered

/-- How expressions are run: the platform, the objects of strings and the engine. -/
structure Execution (H : Type) where
  platform : Platform
  text : String → H
  engine : Engine H

namespace Execution

variable {H : Type} (x : Execution H)

def value (scalar : ScalarValue) : Value H := load x.text scalar.lower

def execute : ScalarInstruction → List (Value H) → Option (Except VmError (Value H)) :=
  x.engine.execute x.platform

/-- A binary operator after its left operand. -/
def runRight (op : SourceOp) (leftTy rightTy : Option BuiltinType) (left : Value H)
    (rhs : Option (Except VmError (Value H))) : Option (Except VmError (Value H)) :=
  if op.logical then runLogical op left rhs
  else
    andThen rhs fun right =>
      match leftTy, rightTy with
      | some leftTy, some rightTy => runBinary x.execute op leftTy rightTy left right
      | _, _ => none

/-- An expression, over the runs of the constants that it names. -/
def runWith (named : ConstId → Option (Except VmError (Value H))) (e : ConstExpr) :
    Option (Except VmError (Value H)) :=
  match e.facts.scalar with
  | some scalar => some (.ok (x.value scalar))
  | none =>
    match e with
    | .unit _ => some (.ok .unit)
    | .name _ (some id) => named id
    | .cast facts operand =>
      andThen (runWith named operand) fun value =>
        match operand.facts.ty, facts.ty with
        | some source, some target => x.execute (.convert ⟨source, target⟩) [value]
        | _, _ => none
    | .unary _ op operand =>
      andThen (runWith named operand) fun value =>
        operand.facts.ty.bind fun input => runUnary x.execute op input value
    | .binary _ op lhs rhs =>
      andThen (runWith named lhs) fun left =>
        x.runRight op lhs.facts.ty rhs.facts.ty left (runWith named rhs)
    | .literal _ | .name _ none | .other _ => none

variable (initializer : ConstId → ConstExpr)

/-- A constant, through at most so many initializers. -/
def named : Nat → ConstId → Option (Except VmError (Value H))
  | 0, _ => none
  | depth + 1, id => x.runWith (named depth) (initializer id)

def runAt (depth : Nat) (e : ConstExpr) : Option (Except VmError (Value H)) :=
  x.runWith (x.named initializer depth) e

/-- Running the expression ends with this result. -/
def Runs (e : ConstExpr) (result : Except VmError (Value H)) : Prop :=
  ∃ depth, x.runAt initializer depth e = some result

/-- Running the expression reads the constant. -/
inductive Reads : ConstExpr → ConstId → Prop
  | name {facts id} : facts.scalar = none → Reads (.name facts (some id)) id
  | cast {facts operand id} : facts.scalar = none → Reads operand id → Reads (.cast facts operand) id
  | unary {facts op operand id} : facts.scalar = none → Reads operand id →
      Reads (.unary facts op operand) id
  | lhs {facts op lhs rhs id} : facts.scalar = none → Reads lhs id → Reads (.binary facts op lhs rhs) id
  | rhs {facts op lhs rhs id left} : facts.scalar = none → x.Runs initializer lhs (.ok left) →
      goesOn op left = true → Reads rhs id → Reads (.binary facts op lhs rhs) id

/-- Running the first constant reads the second one. -/
def Needs (c d : ConstId) : Prop := x.Reads initializer (initializer c) d

end Execution

/-! ## Admitted expressions

The rules of `kagari-hir/src/typeck/check/constants.rs` and `builtin/surface.rs`, on booleans and
integers. -/

def supportsUnaryNegation (ty : BuiltinType) : Bool :=
  ty.integerLayout.any Prod.snd || (FloatType.fromBuiltin ty).isSome

def supportsArithmetic (lhs rhs : BuiltinType) : Bool := decide (lhs = rhs) && lhs.numberType.isSome

def supportsOrdering (lhs rhs : BuiltinType) : Bool :=
  supportsArithmetic lhs rhs || (decide (lhs = rhs) && decide (lhs = .char))

def supportsUnary (op : PrefixOp) (ty : BuiltinType) : Bool :=
  match op with
  | .neg => supportsUnaryNegation ty
  | .not => decide (ty = .bool) || ty.integerLayout.isSome

/-- `supports_const_binary`. -/
def supportsConstBinary (op : SourceOp) (lhs rhs : BuiltinType) : Bool :=
  match op with
  | .bitAnd | .bitOr | .bitXor => lhs.integerLayout.isSome && rhs.integerLayout.isSome && decide (lhs = rhs)
  | .shl | .shr => lhs.integerLayout.isSome && rhs.integerLayout.isSome
  | .add | .sub | .mul | .div | .rem => supportsArithmetic lhs rhs
  | .eq | .notEq => decide (lhs = rhs)
  | .lt | .gt | .le | .ge => supportsOrdering lhs rhs
  | .andAnd | .orOr => decide (lhs = .bool) && decide (rhs = .bool)

/-- The type of a binary operator. -/
def SourceOp.result (op : SourceOp) (lhs : BuiltinType) : BuiltinType :=
  if op.bits.isSome || op.arithmetic.isSome then lhs else .bool

/-- Booleans and the integers of fixed width. -/
def BoolOrInteger (ty : BuiltinType) : Prop := ty = .bool ∨ ty.integerLayout.isSome

/-- A boolean, or an integer in the range of its type. -/
def ScalarValue.Valid : ScalarValue → Prop
  | .bool _ => True
  | .integer value ty => inBounds ty.layout.1 ty.layout.2 value = true
  | .unit | .f32 _ | .f64 _ | .string _ | .char _ => False

/-- An admitted expression over booleans and integers, of a type: the constants that it names are among
the given ones. -/
inductive Typed (type : ConstId → BuiltinType) (among : ConstId → Prop) : ConstExpr → BuiltinType → Prop
  | scalar {e value} : e.facts.scalar = some value → value.Valid → e.facts.ty = some value.ty →
      Typed type among e value.ty
  | name {facts id} : facts.scalar = none → among id → facts.ty = some (type id) →
      Typed type among (.name facts (some id)) (type id)
  | cast {facts operand source target} : facts.scalar = none → Typed type among operand source →
      facts.ty = some target → BoolOrInteger target → source.canCastTo target →
      Typed type among (.cast facts operand) target
  | unary {facts op operand ty} : facts.scalar = none → Typed type among operand ty → facts.ty = some ty →
      supportsUnary op ty → Typed type among (.unary facts op operand) ty
  | binary {facts op lhs rhs left right} : facts.scalar = none → Typed type among lhs left →
      Typed type among rhs right → facts.ty = some (op.result left) → supportsConstBinary op left right →
      Typed type among (.binary facts op lhs rhs) (op.result left)

/-- These constants are admitted expressions of their types, over constants among them. The module may
have others. -/
def ConstModule.Admitted (m : ConstModule) (among : ConstId → Prop) : Prop :=
  ∀ id, among id → Typed m.type among (m.initializer id) (m.type id)

end Kagari.Hir
