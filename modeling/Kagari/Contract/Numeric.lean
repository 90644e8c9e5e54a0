import Kagari.Types.Arithmetic

/-!
# Contracts of integer operations

`kagari-contract/src/numeric.rs`.
-/

namespace Kagari

/-- Checked operand and result types of an integer operation. -/
structure NumericSignature where
  left : Ty
  right : Option Ty
  output : Ty

/-- `NumericOperation::contract`. -/
def NumericOperation.contract (operation : NumericOperation) : Option NumericSignature :=
  let signature : NumericSignature :=
    ⟨.builtin operation.input, operation.rhs.map .builtin, .builtin operation.input⟩
  if operation.input.integerLayout.isNone then none
  else if operation.op = .bitNot then if operation.rhs.isSome then none else some signature
  else
    match operation.rhs with
    | none => none
    | some rhs =>
      if rhs.integerLayout.isNone then none
      else if ¬(operation.op = .shl ∨ operation.op = .shr) ∧ rhs ≠ operation.input then none
      else some signature

end Kagari
