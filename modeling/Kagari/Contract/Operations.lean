import Kagari.Types.Ty

/-!
# Physical types and primitive operations

The representations of run-time values (`kagari-abi/src/representation.rs`) and the operations
that MIR and bytecode share (`kagari-contract/src/operations.rs`, `numeric.rs`).
-/

namespace Kagari

inductive ValueType where
  | never | unit | bool | i32 | i64 | u64 | f32 | f64 | str | heapObject | hostHandle | generic
  | char
deriving DecidableEq

/-- A byte range of the source text. -/
structure Span where
  start : Nat
  stop : Nat
deriving DecidableEq

inductive IntegerOp where
  | bitAnd | bitOr | bitXor | bitNot | shl | shr
  | checkedAdd | checkedSub | checkedMul | checkedDiv | checkedRem
deriving DecidableEq

structure NumericOperation where
  op : IntegerOp
  input : BuiltinType
  rhs : Option BuiltinType
deriving DecidableEq

structure NumericConversion where
  source : BuiltinType
  target : BuiltinType
deriving DecidableEq

inductive StringIterKind where
  | chars | bytes | charIndices | split | splitN | whitespace | lines
deriving DecidableEq

inductive IterOp where
  | new
  | string (kind : StringIterKind)
  | next
deriving DecidableEq

inductive UnaryOp where
  | neg | not
deriving DecidableEq

inductive BinaryOp where
  | numeric (operation : NumericOperation)
  | add | sub | mul | div | rem | eq | notEq | identityEq | identityNotEq | lt | gt | le | ge
  | andAnd | orOr
deriving DecidableEq

end Kagari
