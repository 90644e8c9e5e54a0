import Mathlib.Algebra.Ring.Int.Defs
import Mathlib.Algebra.Ring.Nat
import Kagari.Contract.Operations

/-!
# Fixed-width integer arithmetic

`kagari-types/src/arithmetic.rs`, `integer.rs` and the integer part of `scalar.rs`: the arithmetic
that constant evaluation and execution share. An `i128` is an `Int`; its bit operations go through
128 bits.
-/

namespace Kagari

inductive ArithmeticError where
  | overflow | divisionByZero | remainderByZero
deriving DecidableEq

def ArithmeticError.message : ArithmeticError → String
  | .overflow => "integer overflow"
  | .divisionByZero => "integer division by zero"
  | .remainderByZero => "integer remainder by zero"

inductive IntegerBinaryOp where
  | add | sub | mul | div | rem
deriving DecidableEq

/-! ## Domains -/

inductive IntegerType where
  | i8 | i16 | i32 | i64 | u8 | u16 | u32 | u64
deriving DecidableEq

namespace IntegerType

def fromBuiltin : BuiltinType → Option IntegerType
  | .i8 => some .i8
  | .i16 => some .i16
  | .i32 => some .i32
  | .i64 => some .i64
  | .u8 => some .u8
  | .u16 => some .u16
  | .u32 => some .u32
  | .u64 => some .u64
  | .never | .unit | .bool | .f32 | .f64 | .string | .char => none

def builtinType : IntegerType → BuiltinType
  | .i8 => .i8
  | .i16 => .i16
  | .i32 => .i32
  | .i64 => .i64
  | .u8 => .u8
  | .u16 => .u16
  | .u32 => .u32
  | .u64 => .u64

/-- The width, and whether the domain is signed. -/
def layout : IntegerType → Nat × Bool
  | .i8 => (8, true)
  | .i16 => (16, true)
  | .i32 => (32, true)
  | .i64 => (64, true)
  | .u8 => (8, false)
  | .u16 => (16, false)
  | .u32 => (32, false)
  | .u64 => (64, false)

end IntegerType

def BuiltinType.integerLayout (ty : BuiltinType) : Option (Nat × Bool) :=
  (IntegerType.fromBuiltin ty).map IntegerType.layout

/-- The least and the greatest value of a domain. -/
def bounds (bits : Nat) (signed : Bool) : Int × Int :=
  if signed then (-2 ^ (bits - 1), 2 ^ (bits - 1) - 1) else (0, 2 ^ bits - 1)

def inBounds (bits : Nat) (signed : Bool) (value : Int) : Bool :=
  decide ((bounds bits signed).1 ≤ value ∧ value ≤ (bounds bits signed).2)

/-- Preserve the low bits and interpret the result in the destination domain. -/
def wrap (value : Int) (bits : Nat) (signed : Bool) : Int :=
  let modulus : Int := 2 ^ bits
  let value := value % modulus
  if signed ∧ modulus / 2 ≤ value then value - modulus else value

/-! ## Checked operations -/

/-- The exact result, where the width has it. -/
def checked (bits : Nat) (signed : Bool) (value : Int) : Except ArithmeticError Int :=
  if inBounds bits signed value then .ok value else .error .overflow

/-- The operations of one native width, `binary_ops!`. -/
def nativeBinary (bits : Nat) (signed : Bool) (op : IntegerBinaryOp) (lhs rhs : Int) :
    Except ArithmeticError Int :=
  match op with
  | .add => checked bits signed (lhs + rhs)
  | .sub => checked bits signed (lhs - rhs)
  | .mul => checked bits signed (lhs * rhs)
  | .div => if rhs = 0 then .error .divisionByZero else checked bits signed (lhs.tdiv rhs)
  | .rem =>
    if rhs = 0 then .error .remainderByZero
    else
      -- `checked_rem` has no result where the quotient has none
      match checked bits signed (lhs.tdiv rhs) with
      | .error e => .error e
      | .ok _ => .ok (lhs.tmod rhs)

def i8Binary : IntegerBinaryOp → Int → Int → Except ArithmeticError Int := nativeBinary 8 true

def i16Binary : IntegerBinaryOp → Int → Int → Except ArithmeticError Int := nativeBinary 16 true

def i32Binary : IntegerBinaryOp → Int → Int → Except ArithmeticError Int := nativeBinary 32 true

def i64Binary : IntegerBinaryOp → Int → Int → Except ArithmeticError Int := nativeBinary 64 true

def u8Binary : IntegerBinaryOp → Int → Int → Except ArithmeticError Int := nativeBinary 8 false

def u16Binary : IntegerBinaryOp → Int → Int → Except ArithmeticError Int := nativeBinary 16 false

def u32Binary : IntegerBinaryOp → Int → Int → Except ArithmeticError Int := nativeBinary 32 false

def u64Binary : IntegerBinaryOp → Int → Int → Except ArithmeticError Int := nativeBinary 64 false

def i32Neg (value : Int) : Except ArithmeticError Int := checked 32 true (-value)

def i64Neg (value : Int) : Except ArithmeticError Int := checked 64 true (-value)

/-- Exact source-width arithmetic with native-width checks for all domains. -/
def fixedBinary (op : IntegerBinaryOp) (lhs rhs : Int) (bits : Nat) (signed : Bool) :
    Except ArithmeticError Int :=
  if !inBounds bits signed lhs || !inBounds bits signed rhs then .error .overflow
  else
    match bits, signed with
    | 8, true => i8Binary op (wrap lhs 8 true) (wrap rhs 8 true)
    | 16, true => i16Binary op (wrap lhs 16 true) (wrap rhs 16 true)
    | 32, true => i32Binary op (wrap lhs 32 true) (wrap rhs 32 true)
    | 64, true => i64Binary op (wrap lhs 64 true) (wrap rhs 64 true)
    | 8, false => u8Binary op (wrap lhs 8 false) (wrap rhs 8 false)
    | 16, false => u16Binary op (wrap lhs 16 false) (wrap rhs 16 false)
    | 32, false => u32Binary op (wrap lhs 32 false) (wrap rhs 32 false)
    | 64, false => u64Binary op (wrap lhs 64 false) (wrap rhs 64 false)
    | _, _ => .error .overflow

/-- The checked arithmetic among the operations. -/
def IntegerOp.arithmetic : IntegerOp → Option IntegerBinaryOp
  | .checkedAdd => some .add
  | .checkedSub => some .sub
  | .checkedMul => some .mul
  | .checkedDiv => some .div
  | .checkedRem => some .rem
  | .bitAnd | .bitOr | .bitXor | .bitNot | .shl | .shr => none

/-- The bit operations, over 128 bits. -/
def bitOperation (op : IntegerOp) (lhs rhs : Int) : Int :=
  let l := BitVec.ofInt 128 lhs
  let r := BitVec.ofInt 128 rhs
  match op with
  | .bitAnd => (l &&& r).toInt
  | .bitOr => (l ||| r).toInt
  | .bitXor => (l ^^^ r).toInt
  | .bitNot => (~~~l).toInt
  | .shl => (l <<< rhs.toNat).toInt
  | .shr => (l.sshiftRight rhs.toNat).toInt
  | .checkedAdd | .checkedSub | .checkedMul | .checkedDiv | .checkedRem => 0

def integerOperation (op : IntegerOp) (lhs rhs : Int) (bits : Nat) (signed : Bool) :
    Except String Int :=
  if bits ∉ [8, 16, 32, 64] then .error "invalid integer width"
  else if (op = .shl ∨ op = .shr) ∧ (rhs < 0 ∨ (bits : Int) ≤ rhs) then
    .error "integer shift out of range"
  else
    match op.arithmetic with
    | some arithmetic => (fixedBinary arithmetic lhs rhs bits signed).mapError ArithmeticError.message
    | none => .ok (wrap (bitOperation op lhs rhs) bits signed)

/-! ## Results are in their domain -/

variable {op : IntegerBinaryOp}

section Bounds

variable {bits : Nat} {signed : Bool} {lhs rhs value result : Int}

theorem inBounds_iff : inBounds bits signed value = true ↔
    (bounds bits signed).1 ≤ value ∧ value ≤ (bounds bits signed).2 := by
  simp [inBounds]

theorem checked_ok (h : checked bits signed value = .ok result) :
    result = value ∧ inBounds bits signed value = true := by
  unfold checked at h
  split at h
  · rename_i hin
    exact ⟨(Except.ok.inj h).symm, hin⟩
  · cases h

/-- A domain as a power of two above its width. -/
theorem two_pow_half (hbits : 0 < bits) : (2 : Int) ^ bits = 2 * 2 ^ (bits - 1) := by
  obtain ⟨n, rfl⟩ : ∃ n, bits = n + 1 := ⟨bits - 1, by omega⟩
  rw [Nat.add_sub_cancel, Int.pow_succ, Int.mul_comm]

theorem wrap_inBounds (hbits : 0 < bits) (value : Int) :
    inBounds bits signed (wrap value bits signed) = true := by
  have hpos : (0 : Int) < 2 ^ (bits - 1) := Int.pow_pos (by decide)
  have hmod := two_pow_half hbits
  have hlow := Int.emod_nonneg value (show (2 : Int) ^ bits ≠ 0 by omega)
  have hhigh := Int.emod_lt_of_pos value (show (0 : Int) < 2 ^ bits by omega)
  rw [inBounds_iff]
  unfold wrap bounds
  cases signed with
  | false => simp only [Bool.false_eq_true, false_and, if_false]; omega
  | true => simp only [true_and, if_true]; split <;> constructor <;> omega

/-- A cast to a width that has the value changes nothing. -/
theorem wrap_of_inBounds (hbits : 0 < bits) (h : inBounds bits signed value = true) :
    wrap value bits signed = value := by
  have hmod := two_pow_half hbits
  rw [inBounds_iff] at h
  unfold bounds at h
  unfold wrap
  cases signed with
  | false =>
    simp only [Bool.false_eq_true, false_and, if_false] at h ⊢
    exact Int.emod_eq_of_lt h.1 (by omega)
  | true =>
    simp only [true_and, if_true] at h ⊢
    by_cases hneg : value < 0
    · have hemod : value % 2 ^ bits = value + 2 ^ bits := by
        rw [← Int.add_emod_right, Int.emod_eq_of_lt] <;> omega
      rw [hemod, if_pos (by omega)]
      omega
    · rw [Int.emod_eq_of_lt (by omega) (by omega), if_neg (by omega)]

/-- A remainder is no larger than its dividend. -/
theorem tmod_inBounds (h : inBounds bits signed lhs = true) :
    inBounds bits signed (lhs.tmod rhs) = true := by
  have habs : (lhs.tmod rhs).natAbs ≤ lhs.natAbs := by
    rw [Int.natAbs_tmod]
    exact Nat.mod_le _ _
  have hsign : 0 ≤ lhs → 0 ≤ lhs.tmod rhs := fun hl => Int.tmod_nonneg rhs hl
  have hnonpos : lhs ≤ 0 → lhs.tmod rhs ≤ 0 := by
    intro hl
    have := Int.tmod_nonneg rhs (show 0 ≤ -lhs by omega)
    rw [Int.neg_tmod] at this
    omega
  rw [inBounds_iff] at h ⊢
  unfold bounds at h ⊢
  have hpos : (0 : Int) < 2 ^ (bits - 1) := Int.pow_pos (by decide)
  cases signed <;> simp only [Bool.false_eq_true, if_false, if_true] at h ⊢ <;> constructor <;> omega

theorem nativeBinary_inBounds (hlhs : inBounds bits signed lhs = true)
    (h : nativeBinary bits signed op lhs rhs = .ok result) : inBounds bits signed result = true := by
  have hchk : ∀ {value : Int}, checked bits signed value = .ok result →
      inBounds bits signed result = true := by
    intro value hval
    obtain ⟨rfl, hin⟩ := checked_ok hval
    exact hin
  unfold nativeBinary at h
  cases op with
  | add => exact hchk h
  | sub => exact hchk h
  | mul => exact hchk h
  | div =>
    dsimp only at h
    split at h
    · cases h
    · exact hchk h
  | rem =>
    dsimp only at h
    split at h
    · cases h
    · split at h
      · cases h
      · cases h
        exact tmod_inBounds hlhs

/-- The widths of the domains. -/
theorem IntegerType.layout_mem (domain : IntegerType) : domain.layout.1 ∈ [8, 16, 32, 64] := by
  cases domain <;> decide

theorem fixedBinary_eq (hbits : bits ∈ [8, 16, 32, 64])
    (hlhs : inBounds bits signed lhs = true) (hrhs : inBounds bits signed rhs = true) :
    fixedBinary op lhs rhs bits signed = nativeBinary bits signed op lhs rhs := by
  have hpos : 0 < bits := by
    simp only [List.mem_cons, List.not_mem_nil, or_false] at hbits
    omega
  have hl := wrap_of_inBounds hpos hlhs
  have hr := wrap_of_inBounds hpos hrhs
  unfold fixedBinary
  rw [hlhs, hrhs]
  simp only [List.mem_cons, List.not_mem_nil, or_false] at hbits
  rcases hbits with rfl | rfl | rfl | rfl <;> cases signed <;>
    · rw [if_neg (by decide)]
      exact congrArg₂ (nativeBinary _ _ op) hl hr

theorem integerOperation_inBounds {op : IntegerOp} (hlhs : inBounds bits signed lhs = true)
    (h : integerOperation op lhs rhs bits signed = .ok result) :
    inBounds bits signed result = true := by
  unfold integerOperation at h
  split at h
  · cases h
  · rename_i hbits
    have hpos : 0 < bits := by
      simp only [List.mem_cons, List.not_mem_nil, or_false, not_not] at hbits
      omega
    split at h
    · cases h
    · split at h
      · rename_i arithmetic _
        by_cases hrhs : inBounds bits signed rhs = true
        · rw [fixedBinary_eq (not_not.mp hbits) hlhs hrhs] at h
          cases hrun : nativeBinary bits signed arithmetic lhs rhs with
          | error e => rw [hrun] at h; cases h
          | ok value =>
            rw [hrun] at h
            cases h
            exact nativeBinary_inBounds hlhs hrun
        · rw [Bool.not_eq_true] at hrhs
          unfold fixedBinary at h
          rw [hrhs, if_pos (by simp)] at h
          cases h
      · cases h
        exact wrap_inBounds hpos _

end Bounds

end Kagari
