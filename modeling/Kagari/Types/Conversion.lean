import Kagari.Types.Payload

/-!
# Numeric conversions

`kagari-types/src/numeric.rs`, the number types of `scalar.rs`, `convert` of `payload.rs` and
`conversion` of `payload/operation/select.rs`: casts between numbers, on values for constant
evaluation and on payloads for execution. What a float is as an integer or in the other format is the
platform's, a parameter (`FloatConversions`).
-/

namespace Kagari

/-- A number; a float is its bits. -/
inductive Number where
  | integer (value : Int)
  | f32 (bits : BitVec 32)
  | f64 (bits : BitVec 64)
deriving DecidableEq

inductive NumberType where
  | integer (bits : Nat) (signed : Bool)
  | f32
  | f64
deriving DecidableEq

/-- The conversions of the platform's floats, `as i128`, `as f32` and `as f64`. -/
structure FloatConversions where
  f32ToInt : BitVec 32 → Int
  f64ToInt : BitVec 64 → Int
  f32OfInt : Int → BitVec 32
  f64OfInt : Int → BitVec 64
  narrow : BitVec 64 → BitVec 32
  widen : BitVec 32 → BitVec 64

/-- `clamp`, to a domain. -/
def clampTo (value : Int) (bits : Nat) (signed : Bool) : Int :=
  max (bounds bits signed).1 (min value (bounds bits signed).2)

namespace Number

variable (floats : FloatConversions)

def cast (value : Number) (target : NumberType) : Number :=
  match target with
  | .integer bits signed =>
    .integer <| match value with
      | .integer value => wrap value bits signed
      | .f32 value => clampTo (floats.f32ToInt value) bits signed
      | .f64 value => clampTo (floats.f64ToInt value) bits signed
  | .f32 =>
    .f32 <| match value with
      | .integer value => floats.f32OfInt value
      | .f32 value => value
      | .f64 value => floats.narrow value
  | .f64 =>
    .f64 <| match value with
      | .integer value => floats.f64OfInt value
      | .f32 value => floats.widen value
      | .f64 value => value

def payload : Number → BitVec 64
  | .integer value => integerPayload value
  | .f32 bits => bits.setWidth 64
  | .f64 bits => bits

end Number

namespace BuiltinType

def numberType (ty : BuiltinType) : Option NumberType :=
  match ty with
  | .f32 => some .f32
  | .f64 => some .f64
  | ty => ty.integerLayout.map fun (bits, signed) => .integer bits signed

def canCastTo (source target : BuiltinType) : Bool :=
  (source.numberType.isSome && target.numberType.isSome) ||
    (decide (source = .bool) && target.integerLayout.isSome)

end BuiltinType

/-- `NumericConversion::contract`. -/
def NumericConversion.contract (conversion : NumericConversion) : Option (Ty × Ty) :=
  if conversion.source.canCastTo conversion.target then
    some (.builtin conversion.source, .builtin conversion.target)
  else none

/-! ## Payloads -/

/-- The number of a payload, where the payload is in the domain of the source. -/
def sourceNumber (value : BitVec 64) (source : BuiltinType) : Except String Number :=
  match source with
  | .f32 => .ok (.f32 (value.setWidth 32))
  | .f64 => .ok (.f64 value)
  | source =>
    let input : Int := if source.integerLayout.any Prod.snd then value.toInt else value.toNat
    if source.integerLayout.any fun (bits, signed) => !inBounds bits signed input then
      .error "invalid numeric operand type or range"
    else .ok (.integer input)

/-- `payload::convert`; the panic on a target that is no number is its text. -/
def convertPayload (floats : FloatConversions) (value : BitVec 64) (source target : BuiltinType) :
    Except String (BitVec 64) := do
  let number ← sourceNumber value source
  if source = target then return value
  else
    match target.numberType with
    | some ty => return (number.cast floats ty).payload
    | none => throw "numeric target"

/-- The conversions among the scalar operations. -/
inductive ConversionOperation where
  | integerConvert (source target : IntegerType)
  | integerToFloat (source : IntegerType) (target : FloatType)
  | floatToInteger (source : FloatType) (target : IntegerType)
  | floatConvert (source target : FloatType)
  | boolToInteger (target : IntegerType)
deriving DecidableEq

def FloatType.builtinType : FloatType → BuiltinType
  | .f32 => .f32
  | .f64 => .f64

namespace ConversionOperation

def evaluate (floats : FloatConversions) (operation : ConversionOperation) (lhs : BitVec 64) :
    Except String (BitVec 64) :=
  match operation with
  | .integerConvert source target => convertPayload floats lhs source.builtinType target.builtinType
  | .integerToFloat source target => convertPayload floats lhs source.builtinType target.builtinType
  | .floatToInteger source target => convertPayload floats lhs source.builtinType target.builtinType
  | .floatConvert source target => convertPayload floats lhs source.builtinType target.builtinType
  | .boolToInteger target => convertPayload floats lhs .bool target.builtinType

/-- `ScalarOperation::conversion`. -/
def conversion (source target : BuiltinType) : Option ConversionOperation :=
  match IntegerType.fromBuiltin source, FloatType.fromBuiltin source with
  | some source, _ =>
    match IntegerType.fromBuiltin target with
    | some target => some (.integerConvert source target)
    | none => (FloatType.fromBuiltin target).map (.integerToFloat source)
  | none, some source =>
    match IntegerType.fromBuiltin target with
    | some target => some (.floatToInteger source target)
    | none => (FloatType.fromBuiltin target).map (.floatConvert source)
  | none, none =>
    if source = .bool then (IntegerType.fromBuiltin target).map .boolToInteger else none

end ConversionOperation

/-! ## Conversions of integers -/

variable {v : Int} (ty : IntegerType)

section Conversions

variable {floats : FloatConversions}

@[simp] theorem IntegerType.fromBuiltin_builtinType :
    IntegerType.fromBuiltin ty.builtinType = some ty := by
  cases ty <;> rfl

@[simp] theorem IntegerType.integerLayout_builtinType :
    ty.builtinType.integerLayout = some ty.layout := by
  cases ty <;> rfl

@[simp] theorem IntegerType.numberType_builtinType :
    ty.builtinType.numberType = some (.integer ty.layout.1 ty.layout.2) := by
  cases ty <;> rfl

theorem IntegerType.layout_pos : 0 < ty.layout.1 := by
  cases ty <;> decide

/-- The bounds of a domain, by cases. -/
theorem IntegerType.bounds_le
    (h : inBounds ty.layout.1 ty.layout.2 v = true) :
    (ty.layout.2 = true → -2 ^ 63 ≤ v ∧ v < 2 ^ 63) ∧ (ty.layout.2 = false → 0 ≤ v ∧ v < 2 ^ 64) := by
  rw [inBounds_iff] at h
  cases ty <;> simp [IntegerType.layout, bounds] at h ⊢ <;> omega

/-- The payload of an integer in a domain reads as that integer. -/
theorem decodeInteger_integerPayload {ty : IntegerType}
    (h : inBounds ty.layout.1 ty.layout.2 v = true) : decodeInteger (integerPayload v) ty = .ok v := by
  obtain ⟨hsgn, huns⟩ := ty.bounds_le h
  have hval : (if ty.layout.2 = true then (integerPayload v).toInt else ((integerPayload v).toNat : Int))
      = v := by
    unfold integerPayload
    by_cases hs : ty.layout.2 = true
    · rw [if_pos hs, BitVec.toInt_ofInt]
      have := hsgn hs
      exact Int.bmod_eq_of_le (by omega) (by omega)
    · rw [if_neg hs, BitVec.toNat_ofInt]
      have := huns (Bool.eq_false_iff.mpr hs)
      omega
  unfold decodeInteger decodeIntegerDomain
  simp only [hval, h, if_true]

/-- A payload of an integer type is read as in its domain. -/
theorem sourceNumber_builtinType (value : BitVec 64) (ty : IntegerType) :
    sourceNumber value ty.builtinType = (decodeInteger value ty).map .integer := by
  have hnum : sourceNumber value ty.builtinType =
      if !inBounds ty.layout.1 ty.layout.2 (if ty.layout.2 then value.toInt else value.toNat) then
        .error "invalid numeric operand type or range"
      else .ok (.integer (if ty.layout.2 then value.toInt else value.toNat)) := by
    cases ty <;> rfl
  rw [hnum]
  unfold decodeInteger decodeIntegerDomain
  dsimp only
  cases inBounds ty.layout.1 ty.layout.2 (if ty.layout.2 then value.toInt else value.toNat) <;> rfl

/-- A cast between domains. -/
theorem convertPayload_integer {source target : IntegerType}
    (h : inBounds source.layout.1 source.layout.2 v = true) :
    convertPayload floats (integerPayload v) source.builtinType target.builtinType =
      .ok (integerPayload (wrap v target.layout.1 target.layout.2)) := by
  unfold convertPayload
  rw [sourceNumber_builtinType, decodeInteger_integerPayload h]
  by_cases heq : source.builtinType = target.builtinType
  · have hty : source = target := by
      have := congrArg IntegerType.fromBuiltin heq
      simpa using this
    subst hty
    rw [wrap_of_inBounds source.layout_pos h]
    simp [bind, Except.bind, pure, Except.pure, Except.map]
  · simp [heq, bind, Except.bind, pure, Except.pure, Except.map, Number.cast, Number.payload]

/-- A cast of a boolean. -/
theorem convertPayload_bool {target : IntegerType} (b : Bool) :
    convertPayload floats (boolPayload b) .bool target.builtinType =
      .ok (integerPayload (wrap (if b then 1 else 0) target.layout.1 target.layout.2)) := by
  have hsrc : sourceNumber (boolPayload b) .bool = .ok (.integer (if b then 1 else 0)) := by
    cases b <;> rfl
  have hne : BuiltinType.bool ≠ target.builtinType := by cases target <;> decide
  unfold convertPayload
  rw [hsrc]
  simp [hne, bind, Except.bind, pure, Except.pure, Number.cast, Number.payload]

end Conversions

end Kagari
