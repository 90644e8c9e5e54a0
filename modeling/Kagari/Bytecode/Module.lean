import Kagari.Bytecode.Instruction
import Kagari.Contract.Effects

/-!
# Bytecode functions

The records of `kagari-bytecode/src/module.rs` that the flow check and placement read and write.
-/

namespace Kagari.Bytecode

/-- A visible binding: `slot` holds it from `start` up to, not including, `stop`. -/
structure LocalLiveRange where
  slot : Slot
  start : Nat
  stop : Nat
deriving DecidableEq, Inhabited

/-- The range covers the program counter. -/
def LocalLiveRange.Covers (range : LocalLiveRange) (pc : Nat) : Prop :=
  range.start ≤ pc ∧ pc < range.stop

instance (range : LocalLiveRange) (pc : Nat) : Decidable (range.Covers pc) :=
  inferInstanceAs (Decidable (_ ∧ _))

structure InstructionOrigin where
  instruction : Nat
  span : Span
deriving DecidableEq

/-- The semantic types of parameters and slots, as ordered maps. -/
structure BytecodeSemanticSlots where
  params : List (Nat × Ty)
  slots : List (Nat × Ty)

structure BytecodeDebugMetadata where
  /-- Instruction offsets of the source spans. -/
  sourceSpans : List Nat
  /-- Instruction offsets of the line table. -/
  lineTable : List Nat
  /-- Instruction offsets of the safe debug points. -/
  safeDebugPoints : List Nat
  localLiveRanges : List LocalLiveRange

structure FunctionMetadata where
  semantic : BytecodeSemanticSlots
  slots : List ValueType
  parameterSlots : List Slot
  origins : List InstructionOrigin
  instructionOrigins : List Nat
  effects : EffectSet
  debug : BytecodeDebugMetadata

structure BytecodeFunction (P : Type) where
  id : Nat
  metadata : FunctionMetadata
  instructions : List (BytecodeInstruction P)

end Kagari.Bytecode
