import Kagari.Contract.Numeric
import Kagari.Types.Payload
import Kagari.Runtime.Operands
import Kagari.Mir.Machine
import Kagari.Mir.VerifySound

/-!
# The interpreter on scalar operations

What the interpreter does with unary, binary and numeric instructions: prepared code selects an
operation on payloads (`kagari-runtime/src/module/execution/scalar.rs`) and performs it on the scalar
bank (`frame/cursor/scalars.rs`); equality and identity of other values look into the heap
(`kagari-vm/src/executor/value_ops.rs`). None of them is observed, except for a trap. The other
instructions run as in `Mir.Machine`, and a result is written only to a temporary of its
representation.

The contracts that the verifier checks for these instructions (`kagari-contract/src/contracts.rs`,
`verify/operation.rs`) are here as well.
-/

namespace Kagari.Mir

open Lib Kagari.Runtime

/-! ## Contracts -/

def numericType : ValueType → Bool
  | .i32 | .i64 | .u64 | .f32 | .f64 => true
  | _ => false

def expectType (found expected : ValueType) (label : String) : Except ContractError Unit :=
  if found = expected then .ok () else .error (.typeMismatch label expected found)

def unaryResult (op : UnaryOp) (operand : ValueType) : Except ContractError ValueType :=
  match op with
  | .neg =>
    if numericType operand && operand != .u64 then .ok operand
    else .error (.invalidOperation "invalid unary operand representation")
  | .not =>
    if operand = .bool then .ok .bool
    else .error (.invalidOperation "invalid unary operand representation")

def binaryResult (op : BinaryOp) (lhs rhs : ValueType) : Except ContractError ValueType :=
  match op with
  | .numeric operation =>
    match operation.contract with
    | none => .error (.invalidOperation "invalid numeric contract")
    | some signature =>
      match signature.right with
      | none => .error (.invalidOperation "numeric binary requires rhs")
      | some right => do
        expectType lhs (semanticRepresentation signature.left) "numeric lhs"
        expectType rhs (semanticRepresentation right) "numeric rhs"
        return semanticRepresentation signature.output
  | _ => do
    expectType rhs lhs "binary rhs"
    if (op = .add ∨ op = .sub ∨ op = .mul ∨ op = .div ∨ op = .rem) ∧ numericType lhs then
      return lhs
    else if (op = .eq ∨ op = .notEq) ∧ lhs ≠ .hostHandle then return .bool
    else if (op = .identityEq ∨ op = .identityNotEq) ∧ lhs = .heapObject then return .bool
    else if (op = .lt ∨ op = .gt ∨ op = .le ∨ op = .ge) ∧ (numericType lhs ∨ lhs = .char) then
      return .bool
    else .error (.invalidOperation
      "invalid binary operand representation or unlowered short-circuit operation")

def numericContract (operation : NumericOperation) (dst lhs : ValueType) (rhs : Option ValueType) :
    Except ContractError Unit :=
  match operation.contract with
  | none => .error (.invalidOperation "invalid numeric contract")
  | some signature => do
    expectType lhs (semanticRepresentation signature.left) "numeric input"
    expectType dst (semanticRepresentation signature.output) "numeric output"
    match signature.right, rhs with
    | some ty, some value => expectType value (semanticRepresentation ty) "numeric rhs"
    | none, none => return ()
    | _, _ => .error (.invalidOperation "numeric arity")

section Contract

variable {P : Type}

/-- The contracts of the scalar instructions, in `operation::verify`. -/
def scalarContract : Instruction P → Except ContractError Unit
  | .unary dst op operand => do
    let ty ← unaryResult op operand.ty
    expectType dst.ty ty "unary destination"
  | .binary dst op lhs rhs => do
    let ty ← binaryResult op lhs.ty rhs.ty
    expectType dst.ty ty "binary destination"
  | .numeric dst operation lhs rhs => numericContract operation dst.ty lhs.ty (rhs.map (·.ty))
  | _ => return ()

/-- The verifier's checks, with the contracts of the scalar instructions before the others. -/
def Checks.scalar (checks : Checks P) : Checks P :=
  { checks with
    contract := fun i inputs output =>
      match scalarContract i with
      | .error e => some (.contract e)
      | .ok () => checks.contract i inputs output }

theorem scalarContract_shape (i : Instruction P) : scalarContract i.shape = scalarContract i := by
  cases i with
  | numeric dst operation lhs rhs => cases rhs <;> rfl
  | _ => rfl

/-- An accepted scalar instruction meets its contract. -/
theorem OperationOk.scalar {checks : Checks P} {f : MirFunction P} {i : Instruction P}
    (h : OperationOk checks.scalar f i) : scalarContract i = .ok () := by
  cases hi : scalarContract i with
  | ok _ => rfl
  | error e =>
    exfalso
    have hshp := (scalarContract_shape i).trans hi
    cases i with
    | unary dst op operand =>
      unfold OperationOk Checks.scalar at h
      simp [hshp] at h
    | binary dst op lhs rhs =>
      unfold OperationOk Checks.scalar at h
      simp [hshp] at h
    | numeric dst operation lhs rhs =>
      unfold OperationOk Checks.scalar at h
      simp [hshp] at h
    | _ => cases hi

end Contract

/-! ## Selection -/

/-- `layout::scalar_type`: the representations of the scalar bank. -/
def scalarType : ValueType → Option BuiltinType
  | .unit => some .unit
  | .bool => some .bool
  | .char => some .char
  | .i32 => some .i32
  | .i64 => some .i64
  | .u64 => some .u64
  | .f32 => some .f32
  | .f64 => some .f64
  | .never | .str | .heapObject | .hostHandle | .generic => none

/-- `binary_operation`. -/
def BinaryOp.scalar : BinaryOp → Option ScalarBinaryOp
  | .add => some .add
  | .sub => some .sub
  | .mul => some .mul
  | .div => some .div
  | .rem => some .rem
  | .eq => some .eq
  | .notEq => some .notEq
  | .lt => some .lt
  | .le => some .le
  | .gt => some .gt
  | .ge => some .ge
  | .numeric _ | .identityEq | .identityNotEq | .andAnd | .orOr => none

section Prepare

variable {P : Type}

def selectOperation : Instruction P → Option ScalarOperation
  | .unary _ .neg operand => (scalarType operand.ty).bind ScalarOperation.negation
  | .unary _ .not _ => some .boolNot
  | .binary _ (.numeric operation) _ _ =>
    ScalarOperation.integerOf operation.op operation.input operation.rhs
  | .binary _ op lhs _ => do
    let op ← BinaryOp.scalar op
    let input ← scalarType lhs.ty
    ScalarOperation.binary op input
  | .numeric _ operation _ _ =>
    ScalarOperation.integerOf operation.op operation.input operation.rhs
  | _ => none

/-- `prepare`: the operation, when all operands are in the scalar bank. -/
def prepare (i : Instruction P) : Option ScalarOperation :=
  if (i.inputs ++ i.output.toList).all (fun v => (scalarType v.ty).isSome) then selectOperation i
  else none

end Prepare

/-! ## The machine -/

/-- What the interpreter finds outside the function. -/
structure World (P H W : Type) where
  floats : Floats
  /-- The object of a string constant. -/
  text : String → H
  /-- `script_equal`; none when it traps. -/
  equal : W → Value H → Value H → Option Bool
  /-- `identity_equal`. -/
  identical : W → Value H → Value H → Option Bool
  perform : Instruction P → List (Value H) → (LocalId → Value H) → W →
    Option (Value H × (LocalId → Value H) × W)
  /-- Strings in the temporaries of a frame are live objects. -/
  equal_str : ∀ world a b, (equal world (.str a) (.str b)).isSome

namespace World

variable {P H W : Type} (w : World P H W)

def constant : Constant → Value H
  | .unit => .unit
  | .bool value => .bool value
  | .i32 value => .i32 value.toBitVec
  | .i64 value => .i64 value.toBitVec
  | .u64 value => .u64 value.toBitVec
  | .f32 bits => .f32 bits.toBitVec
  | .f64 bits => .f64 bits.toBitVec
  | .str value => .str (w.text value)
  | .char value => .char value

def truth : Value H → Bool
  | .bool value => value
  | _ => false

/-- The instructions that are not computed here. A result must have the representation of its
temporary. -/
def external : External P (Value H) W where
  constant := w.constant
  truth := truth
  perform := fun shape inputs locals world =>
    (w.perform shape inputs locals world).filter fun result =>
      shape.output.all fun dst => result.1.hasRepresentation dst.ty

/-- A prepared operation on payloads; none when it traps. -/
def evaluate (operation : ScalarOperation) (ty : ValueType) (inputs : List (Value H)) :
    Option (Value H) := do
  let first ← inputs.head?
  let lhs ← first.encode
  let second := (inputs[1]?).getD first
  let rhs ← second.encode
  let bits ← (operation.evaluate w.floats lhs rhs).toOption
  decode ty bits

/-- The result of a comparison through the heap. -/
def compare (i : Instruction P) (world : W) (lhs rhs : Value H) : Option (Option Bool) :=
  match i with
  | .binary _ .eq _ _ => some (w.equal world lhs rhs)
  | .binary _ .notEq _ _ => some ((w.equal world lhs rhs).map (!·))
  | .binary _ .identityEq _ _ => some (w.identical world lhs rhs)
  | .binary _ .identityNotEq _ _ => some ((w.identical world lhs rhs).map (!·))
  | _ => none

/-- What an instruction computes without being observed; the inner option is none when it traps. -/
def compute (i : Instruction P) (inputs : List (Value H)) (world : W) : Option (Option (Value H)) :=
  match prepare i with
  | some operation => i.output.map fun dst => w.evaluate operation dst.ty inputs
  | none =>
    match inputs with
    | [lhs, rhs] => (w.compare i world lhs rhs).map fun result => result.map .bool
    | _ => none

end World

section Interpret

variable {P H W : Type} (w : World P H W)

/-- Write the result of a computation and go to the next row. -/
def State.assignOutput (s : State (Value H) W) (output : Option MirValue) (value : Value H) :
    State (Value H) W :=
  output.elim { s with index := s.index + 1 } fun dst => s.assign dst value

def interpretRow (row : Row P) (s : State (Value H) W) :
    Step (State (Value H) W) (Event P (Value H)) (Outcome P (Value H) W) :=
  match w.compute row.instruction (s.read row.instruction.inputs) s.world with
  | some (some value) => .next (s.assignOutput row.instruction.output value) []
  | some none => .halt (.trapped row.span row.instruction.shape (s.read row.instruction.inputs))
  | none => stepRow w.external row s

/-- Execute one row or one terminator. -/
def interpret (f : MirFunction P) (s : State (Value H) W) :
    Step (State (Value H) W) (Event P (Value H)) (Outcome P (Value H) W) :=
  match (f.rowsAt s.block)[s.index]? with
  | some row => interpretRow w row s
  | none => stepTerminator w.external (f.terminatorAt s.block) (f.terminatorSpanAt s.block) s

end Interpret

/-- For every world, every argument and every answer of the world, the interpreter shows the same
of both functions. -/
def SameInterpretation {P : Type} (f f' : MirFunction P) : Prop :=
  ∀ (H W : Type) (w : World P H W) (env : TempId → Value H) (locals : LocalId → Value H) (world : W),
    Machine.SameBehaviour (interpret w f) (start f env locals world)
      (interpret w f') (start f' env locals world)

end Kagari.Mir
