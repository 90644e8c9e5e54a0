import Mathlib.Algebra.Order.Ring.Abs
import Kagari.Types.Arithmetic

/-!
# Explicit arithmetic policies

`arithmetic_method` of `kagari-types/src/integer.rs`: wrapping, checked, overflowing and saturating
arithmetic and the rotations, for every width over one `i128`. Against the mathematical integers
(`IntegerMethod.Computes`) and against the other two implementations of the checked operations:
`arithmeticMethod_exact`.
-/

namespace Kagari

/-- Explicit arithmetic policies, independent of the engine build profile. -/
inductive IntegerMethod where
  | wrappingAdd | wrappingSub | wrappingMul
  | checkedAdd | checkedSub | checkedMul | checkedDiv | checkedRem
  | overflowingAdd | overflowingSub | overflowingMul
  | saturatingAdd | saturatingSub | saturatingMul
  | wrappingAddSigned
  | rotateLeft | rotateRight
deriving DecidableEq

/-! ## The `i128` intermediate -/

def i128Checked (value : Int) : Option Int :=
  if -2 ^ 127 ≤ value ∧ value < 2 ^ 127 then some value else none

def i128CheckedDiv (lhs rhs : Int) : Option Int :=
  if rhs = 0 then none else i128Checked (lhs.tdiv rhs)

def i128CheckedRem (lhs rhs : Int) : Option Int :=
  (i128CheckedDiv lhs rhs).map fun _ => lhs.tmod rhs

def i128WrappingMul (lhs rhs : Int) : Int := (BitVec.ofInt 128 (lhs * rhs)).toInt

/-- The result before the policy applies. -/
def exactResult (op : IntegerMethod) (lhs rhs minimum : Int) (signed : Bool) : Option Int :=
  match op with
  | .wrappingAdd | .checkedAdd | .overflowingAdd | .saturatingAdd | .wrappingAddSigned =>
    i128Checked (lhs + rhs)
  | .wrappingSub | .checkedSub | .overflowingSub | .saturatingSub => i128Checked (lhs - rhs)
  | .wrappingMul | .checkedMul | .overflowingMul | .saturatingMul => i128Checked (lhs * rhs)
  | .checkedDiv => i128CheckedDiv lhs rhs
  | .checkedRem =>
    if signed ∧ lhs = minimum ∧ rhs = -1 then none else i128CheckedRem lhs rhs
  -- rotations are answered before
  | .rotateLeft | .rotateRight => none

/-- What stands in for a result that the intermediate does not have. -/
def wrappedResult (op : IntegerMethod) (lhs rhs : Int) : Int :=
  match op with
  | .wrappingMul | .overflowingMul | .saturatingMul => i128WrappingMul lhs rhs
  | _ => 0

/-- The rotations, over 128 bits. -/
def rotation (op : IntegerMethod) (value : Int) (bits shift : Nat) : Int :=
  let value := BitVec.ofInt 128 value
  if op = .rotateLeft then (value <<< shift ||| value.sshiftRight (bits - shift)).toInt
  else (value.sshiftRight shift ||| value <<< (bits - shift)).toInt

def clamp (value minimum maximum : Int) : Int :=
  if value < minimum then minimum else if value > maximum then maximum else value

/-- The policy-selected value and an overflow or undefined-operation flag. -/
def arithmeticMethod (op : IntegerMethod) (lhs rhs : Int) (bits : Nat) (signed : Bool) : Int × Bool :=
  let (minimum, maximum) := bounds bits signed
  if op = .rotateLeft ∨ op = .rotateRight then
    let shift := (rhs.tmod bits % 2 ^ 32).toNat
    (wrap (rotation op (wrap lhs bits false) bits shift) bits signed, false)
  else
    let exact := exactResult op lhs rhs minimum signed
    let overflow := exact.elim true fun v => decide (v < minimum) || decide (v > maximum)
    if op = .saturatingAdd ∨ op = .saturatingSub ∨ op = .saturatingMul then
      (clamp (exact.getD maximum) minimum maximum, overflow)
    else (wrap (exact.getD (wrappedResult op lhs rhs)) bits signed, overflow)

section Equations

variable {op : IntegerMethod} {lhs rhs : Int} {bits : Nat} {signed : Bool}

/-- The flag of the methods that are not rotations. -/
def overflowFlag (op : IntegerMethod) (lhs rhs : Int) (bits : Nat) (signed : Bool) : Bool :=
  (exactResult op lhs rhs (bounds bits signed).1 signed).elim true fun v =>
    decide (v < (bounds bits signed).1) || decide (v > (bounds bits signed).2)

theorem arithmeticMethod_wrapped (hrot : ¬(op = .rotateLeft ∨ op = .rotateRight))
    (hsat : ¬(op = .saturatingAdd ∨ op = .saturatingSub ∨ op = .saturatingMul)) :
    arithmeticMethod op lhs rhs bits signed =
      (wrap ((exactResult op lhs rhs (bounds bits signed).1 signed).getD (wrappedResult op lhs rhs))
        bits signed, overflowFlag op lhs rhs bits signed) :=
  (if_neg hrot).trans (if_neg hsat)

theorem arithmeticMethod_saturated
    (hsat : op = .saturatingAdd ∨ op = .saturatingSub ∨ op = .saturatingMul) :
    arithmeticMethod op lhs rhs bits signed =
      (clamp ((exactResult op lhs rhs (bounds bits signed).1 signed).getD (bounds bits signed).2)
        (bounds bits signed).1 (bounds bits signed).2, overflowFlag op lhs rhs bits signed) := by
  have hrot : ¬(op = .rotateLeft ∨ op = .rotateRight) := by
    rcases hsat with rfl | rfl | rfl <;> decide
  exact (if_neg hrot).trans (if_pos hsat)

theorem arithmeticMethod_rotated (hrot : op = .rotateLeft ∨ op = .rotateRight) :
    arithmeticMethod op lhs rhs bits signed =
      (wrap (rotation op (wrap lhs bits false) bits (rhs.tmod bits % 2 ^ 32).toNat) bits signed,
        false) :=
  if_pos hrot

end Equations

/-! ## On the mathematical integers -/

/-- The value of the domain that is congruent modulo `2 ^ bits`. -/
def residue (bits : Nat) (signed : Bool) (value : Int) : Int :=
  if signed then value.bmod (2 ^ bits) else value % 2 ^ bits

/-- The value of a bit pattern in the domain. -/
def patternValue {bits : Nat} (signed : Bool) (pattern : BitVec bits) : Int :=
  if signed then pattern.toInt else pattern.toNat

/-- The value of the domain nearest to a number. -/
def nearest (bits : Nat) (signed : Bool) (value : Int) : Int :=
  max (bounds bits signed).1 (min value (bounds bits signed).2)

/-- The value of a checked operation: none where the flag is set. -/
def outcome (out : Int × Bool) : Option Int := if out.2 then none else some out.1

/-- The operation is defined, and its value. -/
def definedAt (bits : Nat) (signed : Bool) (op : IntegerBinaryOp) (lhs rhs : Int) : Option Int :=
  match op with
  | .add => if inBounds bits signed (lhs + rhs) then some (lhs + rhs) else none
  | .sub => if inBounds bits signed (lhs - rhs) then some (lhs - rhs) else none
  | .mul => if inBounds bits signed (lhs * rhs) then some (lhs * rhs) else none
  | .div => if rhs ≠ 0 ∧ inBounds bits signed (lhs.tdiv rhs) then some (lhs.tdiv rhs) else none
  | .rem => if rhs ≠ 0 ∧ inBounds bits signed (lhs.tdiv rhs) then some (lhs.tmod rhs) else none

namespace IntegerMethod

/-- The operation of a checked method. -/
def checkedOp : IntegerMethod → Option IntegerBinaryOp
  | .checkedAdd => some .add
  | .checkedSub => some .sub
  | .checkedMul => some .mul
  | .checkedDiv => some .div
  | .checkedRem => some .rem
  | _ => none

/-- What a method computes. -/
def Computes (method : IntegerMethod) (bits : Nat) (signed : Bool) (lhs rhs : Int)
    (out : Int × Bool) : Prop :=
  match method with
  | .wrappingAdd | .wrappingAddSigned => out.1 = residue bits signed (lhs + rhs)
  | .wrappingSub => out.1 = residue bits signed (lhs - rhs)
  | .wrappingMul => out.1 = residue bits signed (lhs * rhs)
  | .checkedAdd => outcome out = definedAt bits signed .add lhs rhs
  | .checkedSub => outcome out = definedAt bits signed .sub lhs rhs
  | .checkedMul => outcome out = definedAt bits signed .mul lhs rhs
  | .checkedDiv => outcome out = definedAt bits signed .div lhs rhs
  | .checkedRem => outcome out = definedAt bits signed .rem lhs rhs
  | .overflowingAdd =>
    out = (residue bits signed (lhs + rhs), !inBounds bits signed (lhs + rhs))
  | .overflowingSub =>
    out = (residue bits signed (lhs - rhs), !inBounds bits signed (lhs - rhs))
  | .overflowingMul =>
    out = (residue bits signed (lhs * rhs), !inBounds bits signed (lhs * rhs))
  | .saturatingAdd => out.1 = nearest bits signed (lhs + rhs)
  | .saturatingSub => out.1 = nearest bits signed (lhs - rhs)
  | .saturatingMul => out.1 = nearest bits signed (lhs * rhs)
  | .rotateLeft => out.1 = patternValue signed ((BitVec.ofInt bits lhs).rotateLeft rhs.toNat)
  | .rotateRight => out.1 = patternValue signed ((BitVec.ofInt bits lhs).rotateRight rhs.toNat)

/-- The second operand is in its range (`IntegerMethodContract`): a `u32` count for a rotation, a
signed offset of the same width for `wrappingAddSigned`, else a value of the receiver's type. -/
def Operand (method : IntegerMethod) (bits : Nat) (signed : Bool) (rhs : Int) : Prop :=
  match method with
  | .rotateLeft | .rotateRight => inBounds 32 false rhs = true
  | .wrappingAddSigned => inBounds bits true rhs = true ∨ inBounds bits signed rhs = true
  | _ => inBounds bits signed rhs = true

end IntegerMethod

section Exact

variable {bits : Nat} {signed : Bool} {lhs rhs value : Int}

/-! ## Wrapping -/

theorem wrap_eq_residue (hbits : 0 < bits) (value : Int) :
    wrap value bits signed = residue bits signed value := by
  have hmod := two_pow_half hbits
  have hpos : (0 : Int) < 2 ^ (bits - 1) := Int.pow_pos (by decide)
  unfold wrap residue
  cases signed with
  | false => simp
  | true =>
    have hcast : ((2 ^ bits : Nat) : Int) = 2 ^ bits := by push_cast; rfl
    simp only [true_and, if_true]
    rw [Int.bmod_eq_emod, hcast]
    have hhalf : ((2 : Int) ^ bits + 1) / 2 = 2 ^ bits / 2 := by omega
    rw [hhalf]
    split
    · rw [hcast]
    · rw [Int.natCast_zero, Int.sub_zero]

/-- Wrapping looks at the low bits only. -/
theorem wrap_congr {value' : Int} (h : value % 2 ^ bits = value' % 2 ^ bits) :
    wrap value bits signed = wrap value' bits signed := by
  unfold wrap
  simp only [h]

/-- Wrapping what a 128-bit pattern stands for takes its low bits. -/
theorem wrap_toInt (hbits : 0 < bits) (hle : bits ≤ 128) (pattern : BitVec 128) :
    wrap pattern.toInt bits signed = patternValue signed (pattern.setWidth bits) := by
  have hlow : pattern.toInt % 2 ^ bits = ((pattern.setWidth bits).toNat : Int) % 2 ^ bits := by
    have hdvd : ((2 ^ bits : Nat) : Int) ∣ ((2 ^ 128 : Nat) : Int) :=
      Int.natCast_dvd_natCast.mpr (Nat.pow_dvd_pow 2 hle)
    have h128 : pattern.toInt % ((2 ^ 128 : Nat) : Int) = (pattern.toNat : Int) % (2 ^ 128 : Nat) := by
      rw [BitVec.toInt_eq_toNat_bmod]
      exact Int.bmod_emod
    have h2 : (2 : Int) ^ bits = ((2 ^ bits : Nat) : Int) := (Int.natCast_pow 2 bits).symm
    rw [h2, ← Int.emod_emod_of_dvd _ hdvd, h128, Int.emod_emod_of_dvd _ hdvd, BitVec.toNat_setWidth,
      Int.natCast_emod, Int.emod_emod]
  rw [wrap_congr hlow, wrap_eq_residue hbits]
  unfold residue patternValue
  cases signed with
  | false =>
    simp only [Bool.false_eq_true, if_false]
    have hlt := (pattern.setWidth bits).isLt
    exact Int.emod_eq_of_lt (Int.natCast_nonneg _) (by exact_mod_cast hlt)
  | true =>
    simp only [if_true]
    rw [BitVec.toInt_eq_toNat_bmod]

/-! ## What the intermediate has -/

/-- Every operand is far from the ends of the intermediate. -/
theorem inBounds_narrow (hle : bits ≤ 64) (h : inBounds bits signed value = true) :
    -2 ^ 63 ≤ value ∧ value < 2 ^ 64 ∧ (signed = true → value < 2 ^ 63) ∧
      (signed = false → 0 ≤ value) := by
  have hhalf : (2 : Int) ^ (bits - 1) ≤ 2 ^ 63 :=
    pow_le_pow_right₀ (by decide) (by omega)
  have hfull : (2 : Int) ^ bits ≤ 2 ^ 64 := pow_le_pow_right₀ (by decide) hle
  rw [inBounds_iff] at h
  unfold bounds at h
  cases signed with
  | false =>
    simp only [Bool.false_eq_true, if_false] at h
    refine ⟨by omega, by omega, nofun, fun _ => h.1⟩
  | true =>
    simp only [if_true] at h
    exact ⟨by omega, by omega, fun _ => by omega, nofun⟩

theorem i128Checked_of_narrow (hlow : -2 ^ 127 ≤ value) (hhigh : value < 2 ^ 127) :
    i128Checked value = some value := if_pos ⟨hlow, hhigh⟩

theorem i128Checked_some {v : Int} (h : i128Checked value = some v) : v = value := by
  unfold i128Checked at h
  split at h
  · exact (Option.some.inj h).symm
  · cases h

/-- Only a product of unsigned values is out of reach, and then it is too large. -/
theorem mul_of_i128Checked (hle : bits ≤ 64) (hl : inBounds bits signed lhs = true)
    (hr : inBounds bits signed rhs = true) (h : i128Checked (lhs * rhs) = none) :
    (bounds bits signed).2 < lhs * rhs := by
  have hout : ¬(-2 ^ 127 ≤ lhs * rhs ∧ lhs * rhs < 2 ^ 127) := by
    intro hin
    rw [i128Checked, if_pos hin] at h
    cases h
  obtain ⟨hl1, hl2, hl3, hl4⟩ := inBounds_narrow hle hl
  obtain ⟨hr1, hr2, hr3, hr4⟩ := inBounds_narrow hle hr
  cases signed with
  | true =>
    have habs : |lhs * rhs| ≤ 2 ^ 63 * 2 ^ 63 := by
      rw [abs_mul]
      exact mul_le_mul (abs_le.mpr ⟨hl1, (hl3 rfl).le⟩) (abs_le.mpr ⟨hr1, (hr3 rfl).le⟩)
        (abs_nonneg _) (by decide)
    obtain ⟨hlow, hhigh⟩ := abs_le.mp habs
    omega
  | false =>
    have hnn : 0 ≤ lhs * rhs := Int.mul_nonneg (hl4 rfl) (hr4 rfl)
    have hmax : (bounds bits false).2 < 2 ^ 64 := by
      have hfull : (2 : Int) ^ bits ≤ 2 ^ 64 := pow_le_pow_right₀ (by decide) hle
      show (2 : Int) ^ bits - 1 < 2 ^ 64
      omega
    omega

/-- Wrapping what 128 bits keep of a number is wrapping the number. -/
theorem wrap_ofInt (hbits : 0 < bits) (hle : bits ≤ 64) (value : Int) :
    wrap (BitVec.ofInt 128 value).toInt bits signed = residue bits signed value := by
  rw [← wrap_eq_residue hbits]
  refine wrap_congr ?_
  have hdvd : ((2 ^ bits : Nat) : Int) ∣ ((2 ^ 128 : Nat) : Int) :=
    Int.natCast_dvd_natCast.mpr (Nat.pow_dvd_pow 2 (by omega))
  have h2 : (2 : Int) ^ bits = ((2 ^ bits : Nat) : Int) := (Int.natCast_pow 2 bits).symm
  rw [BitVec.toInt_ofInt, h2, ← Int.emod_emod_of_dvd _ hdvd, Int.bmod_emod, Int.emod_emod_of_dvd _ hdvd]

section Policies

variable (hmiss : i128Checked value = none → (bounds bits signed).2 < value)

include hmiss

/-- The flag says that the value is out of range. -/
theorem overflow_eq : ((i128Checked value).elim true fun v =>
    decide (v < (bounds bits signed).1) || decide (v > (bounds bits signed).2)) =
      !inBounds bits signed value := by
  unfold inBounds
  cases h : i128Checked value with
  | none =>
    have hout := hmiss h
    rw [Option.elim_none, eq_comm, Bool.not_eq_true', decide_eq_false_iff_not]
    omega
  | some v =>
    obtain rfl := i128Checked_some h
    simp only [Option.elim_some, Bool.decide_and, Bool.not_and, ← decide_not, not_le, gt_iff_lt]

omit hmiss in
theorem bounds_le : (bounds bits signed).1 ≤ (bounds bits signed).2 := by
  have hpos : (0 : Int) < 2 ^ (bits - 1) := Int.pow_pos (by decide)
  have hpos' : (0 : Int) < 2 ^ bits := Int.pow_pos (by decide)
  unfold bounds
  cases signed with
  | false => simp only [Bool.false_eq_true, if_false]; omega
  | true => simp only [if_true]; omega

theorem clamp_eq_nearest : clamp ((i128Checked value).getD (bounds bits signed).2)
    (bounds bits signed).1 (bounds bits signed).2 = nearest bits signed value := by
  have hle : (bounds bits signed).1 ≤ (bounds bits signed).2 := bounds_le
  unfold clamp nearest
  cases h : i128Checked value with
  | none =>
    have hout := hmiss h
    simp only [Option.getD_none]
    omega
  | some v =>
    obtain rfl := i128Checked_some h
    simp only [Option.getD_some]
    omega

omit hmiss in
theorem wrap_exact (hbits : 0 < bits) {other : Int}
    (hne : i128Checked value = none → wrap other bits signed = residue bits signed value) :
    wrap ((i128Checked value).getD other) bits signed = residue bits signed value := by
  cases h : i128Checked value with
  | none => exact hne h
  | some v =>
    obtain rfl := i128Checked_some h
    exact wrap_eq_residue hbits _

/-- A checked method has the value where it is in range. -/
theorem outcome_eq (hbits : 0 < bits) :
    outcome (wrap ((i128Checked value).getD 0) bits signed,
      (i128Checked value).elim true fun v =>
        decide (v < (bounds bits signed).1) || decide (v > (bounds bits signed).2)) =
      if inBounds bits signed value then some value else none := by
  rw [overflow_eq hmiss]
  unfold outcome
  by_cases hin : inBounds bits signed value = true
  · have hsome : i128Checked value = some value := by
      cases h : i128Checked value with
      | none =>
        have hout := hmiss h
        rw [inBounds_iff] at hin
        omega
      | some v => rw [i128Checked_some h]
    simp only [hin, hsome, Bool.not_true, Bool.false_eq_true, if_false, if_true, Option.getD_some]
    rw [wrap_of_inBounds hbits hin]
  · simp [hin]

end Policies

/-! ## Division -/

/-- A quotient is no larger than its dividend. -/
theorem natAbs_tdiv_le (lhs rhs : Int) : (lhs.tdiv rhs).natAbs ≤ lhs.natAbs := by
  rw [Int.natAbs_tdiv]
  exact Nat.div_le_self _ _

theorem i128CheckedDiv_eq (hle : bits ≤ 64) (hl : inBounds bits signed lhs = true) :
    i128CheckedDiv lhs rhs = if rhs = 0 then none else some (lhs.tdiv rhs) := by
  obtain ⟨hlow, hhigh, -, -⟩ := inBounds_narrow hle hl
  have habs := natAbs_tdiv_le lhs rhs
  unfold i128CheckedDiv
  rw [i128Checked_of_narrow (by omega) (by omega)]

/-- The one quotient that a width does not have. -/
theorem tdiv_inBounds_iff (hl : inBounds bits signed lhs = true)
    (hr : inBounds bits signed rhs = true) (hzero : rhs ≠ 0) :
    inBounds bits signed (lhs.tdiv rhs) = true ↔
      ¬(signed = true ∧ lhs = (bounds bits signed).1 ∧ rhs = -1) := by
  have hpos : (0 : Int) < 2 ^ (bits - 1) := Int.pow_pos (by decide)
  rw [inBounds_iff] at hl hr ⊢
  unfold bounds at hl hr ⊢
  cases signed with
  | false =>
    simp only [Bool.false_eq_true, if_false, false_and, not_false_eq_true, iff_true] at hl hr ⊢
    have habs := natAbs_tdiv_le lhs rhs
    have hnn := Int.tdiv_nonneg hl.1 hr.1
    omega
  | true =>
    simp only [if_true, true_and] at hl hr ⊢
    by_cases hunit : rhs = -1
    · subst hunit
      rw [Int.tdiv_neg, Int.tdiv_one]
      omega
    · simp only [hunit, and_false, not_false_eq_true, iff_true]
      by_cases hone : rhs = 1
      · subst hone
        rw [Int.tdiv_one]
        exact hl
      · have habs : (lhs.tdiv rhs).natAbs ≤ lhs.natAbs / 2 := by
          rw [Int.natAbs_tdiv]
          exact Nat.div_le_div_left (by omega) (by decide)
        omega

/-- The checked operations of one width have the value where it is defined. -/
theorem nativeBinary_toOption (op : IntegerBinaryOp) :
    (nativeBinary bits signed op lhs rhs).toOption = definedAt bits signed op lhs rhs := by
  have hchk : ∀ v, (checked bits signed v).toOption =
      if inBounds bits signed v then some v else none := by
    intro v
    unfold checked
    split
    · rfl
    · rfl
  cases op with
  | add => exact hchk _
  | sub => exact hchk _
  | mul => exact hchk _
  | div =>
    unfold nativeBinary definedAt
    by_cases hzero : rhs = 0
    · simp [hzero, Except.toOption]
    · simp only [hzero, if_false, hchk, ne_eq, not_false_eq_true, true_and]
  | rem =>
    unfold nativeBinary definedAt
    by_cases hzero : rhs = 0
    · simp [hzero, Except.toOption]
    · simp only [hzero, if_false, ne_eq, not_false_eq_true, true_and]
      unfold checked
      by_cases hin : inBounds bits signed (lhs.tdiv rhs) = true
      · simp [hin, Except.toOption]
      · simp [hin, Except.toOption]

theorem checkedDiv_outcome (hbits : 0 < bits) (hle : bits ≤ 64)
    (hl : inBounds bits signed lhs = true) :
    outcome (arithmeticMethod .checkedDiv lhs rhs bits signed) =
      definedAt bits signed .div lhs rhs := by
  have hexact : exactResult .checkedDiv lhs rhs (bounds bits signed).1 signed =
      if rhs = 0 then none else some (lhs.tdiv rhs) := i128CheckedDiv_eq hle hl
  rw [arithmeticMethod_wrapped (by decide) (by decide), overflowFlag, hexact]
  unfold outcome definedAt
  by_cases hzero : rhs = 0
  · simp [hzero]
  · by_cases hin : inBounds bits signed (lhs.tdiv rhs) = true
    · have hrng := inBounds_iff.mp hin
      simp [hzero, hin, wrap_of_inBounds hbits hin, not_lt.mpr hrng.1, not_lt.mpr hrng.2]
    · have hout : lhs.tdiv rhs < (bounds bits signed).1 ∨ (bounds bits signed).2 < lhs.tdiv rhs := by
        rw [inBounds_iff] at hin
        omega
      simp [hzero, hin, hout]

theorem checkedRem_outcome (hbits : 0 < bits) (hle : bits ≤ 64)
    (hl : inBounds bits signed lhs = true) (hr : inBounds bits signed rhs = true) :
    outcome (arithmeticMethod .checkedRem lhs rhs bits signed) =
      definedAt bits signed .rem lhs rhs := by
  have hexact : exactResult .checkedRem lhs rhs (bounds bits signed).1 signed =
      if signed ∧ lhs = (bounds bits signed).1 ∧ rhs = -1 then none
      else if rhs = 0 then none else some (lhs.tmod rhs) := by
    unfold exactResult i128CheckedRem
    rw [i128CheckedDiv_eq hle hl]
    by_cases hzero : rhs = 0
    · simp [hzero]
    · simp [hzero]
  rw [arithmeticMethod_wrapped (by decide) (by decide), overflowFlag, hexact]
  unfold outcome definedAt
  by_cases hzero : rhs = 0
  · simp [hzero]
  · have hquo := tdiv_inBounds_iff hl hr hzero
    by_cases hmin : signed = true ∧ lhs = (bounds bits signed).1 ∧ rhs = -1
    · have hout : ¬inBounds bits signed (lhs.tdiv rhs) = true := fun h => hquo.mp h hmin
      rw [if_pos hmin]
      simp [hout]
    · have hin : inBounds bits signed (lhs.tmod rhs) = true := tmod_inBounds hl
      have hrng := inBounds_iff.mp hin
      rw [if_neg hmin]
      simp [hzero, hquo.mpr hmin, wrap_of_inBounds hbits hin, not_lt.mpr hrng.1,
        not_lt.mpr hrng.2]

/-! ## Rotations and shifts -/

theorem rotation_eq (hbits : 0 < bits) (hle : bits ≤ 64) {op : IntegerMethod} {shift : Nat}
    (hshf : shift < bits) :
    wrap (rotation op (wrap lhs bits false) bits shift) bits signed =
      patternValue signed (if op = .rotateLeft then (BitVec.ofInt bits lhs).rotateLeft shift
        else (BitVec.ofInt bits lhs).rotateRight shift) := by
  have hval : BitVec.ofInt 128 (wrap lhs bits false) = (BitVec.ofInt bits lhs).setWidth 128 := by
    have hwrap : wrap lhs bits false = ((BitVec.ofInt bits lhs).toNat : Int) := by
      have hnn := Int.emod_nonneg lhs (Int.natCast_ne_zero.mpr (Nat.two_pow_pos bits).ne')
      rw [wrap_eq_residue hbits, residue, BitVec.toNat_ofInt, Int.toNat_of_nonneg hnn,
        Int.natCast_pow]
      rfl
    rw [hwrap, BitVec.ofInt_natCast, BitVec.ofNat_toNat]
  have hbit : ∀ k, (BitVec.setWidth 128 (BitVec.ofInt bits lhs)).getLsbD k =
      (BitVec.ofInt bits lhs).getLsbD k := by
    intro k
    rw [BitVec.getLsbD_setWidth]
    by_cases hk : k < 128
    · simp [hk]
    · rw [BitVec.getLsbD_of_ge _ k (by omega), Bool.and_false]
  unfold rotation
  rw [hval]
  by_cases hop : op = .rotateLeft
  · rw [if_pos hop, if_pos hop, wrap_toInt hbits (by omega)]
    refine congrArg (patternValue signed) (BitVec.eq_of_getLsbD_eq fun i hi => ?_)
    rw [BitVec.rotateLeft_def, Nat.mod_eq_of_lt hshf]
    simp only [BitVec.getLsbD_setWidth, BitVec.getLsbD_or, BitVec.getLsbD_shiftLeft,
      BitVec.getLsbD_sshiftRight, BitVec.getLsbD_ushiftRight, hbit]
    have h1 : ¬128 ≤ i := by omega
    have h2 : bits - shift + i < 128 := by omega
    simp [hi, h1, h2, Nat.not_le.mp h1]
  · rw [if_neg hop, if_neg hop, wrap_toInt hbits (by omega)]
    refine congrArg (patternValue signed) (BitVec.eq_of_getLsbD_eq fun i hi => ?_)
    rw [BitVec.rotateRight_def, Nat.mod_eq_of_lt hshf]
    simp only [BitVec.getLsbD_setWidth, BitVec.getLsbD_or, BitVec.getLsbD_shiftLeft,
      BitVec.getLsbD_sshiftRight, BitVec.getLsbD_ushiftRight, hbit]
    have h1 : ¬128 ≤ i := by omega
    have h2 : shift + i < 128 := by omega
    simp [hi, h1, h2, Nat.not_le.mp h1]

/-- The rotation count, as the code takes it. -/
theorem rotation_count (hbits : 0 < bits) (hle : bits ≤ 64) (hr : inBounds 32 false rhs = true) :
    (rhs.tmod bits % 2 ^ 32).toNat = rhs.toNat % bits := by
  have hnn : 0 ≤ rhs := (inBounds_iff.mp hr).1
  obtain ⟨n, rfl⟩ := Int.eq_ofNat_of_zero_le hnn
  have hlt := Nat.mod_lt n hbits
  rw [← Int.ofNat_tmod, Int.toNat_natCast]
  omega

theorem shl_eq (hbits : 0 < bits) (hle : bits ≤ 64) :
    wrap (bitOperation .shl lhs rhs) bits signed = residue bits signed (lhs * 2 ^ rhs.toNat) := by
  have hshf : BitVec.ofInt 128 lhs <<< rhs.toNat = BitVec.ofInt 128 (lhs * 2 ^ rhs.toNat) := by
    rw [BitVec.shiftLeft_eq_mul_twoPow, BitVec.ofInt_mul]
    congr 1
    rw [← BitVec.toNat_inj, BitVec.toNat_twoPow, BitVec.toNat_ofInt]
    have h2 : (2 : Int) ^ rhs.toNat = ((2 ^ rhs.toNat : Nat) : Int) := (Int.natCast_pow 2 _).symm
    rw [h2, ← Int.natCast_emod, Int.toNat_natCast]
  show wrap (BitVec.ofInt 128 lhs <<< rhs.toNat).toInt bits signed = _
  rw [hshf, wrap_ofInt hbits hle]

theorem shr_eq (hbits : 0 < bits) (hle : bits ≤ 64) (hl : inBounds bits signed lhs = true) :
    wrap (bitOperation .shr lhs rhs) bits signed = lhs / 2 ^ rhs.toNat := by
  have hself : (BitVec.ofInt 128 lhs).toInt = lhs := by
    obtain ⟨hlow, hhigh, -, -⟩ := inBounds_narrow hle hl
    exact BitVec.toInt_ofInt_eq_self (by decide) (by omega) (by omega)
  show wrap ((BitVec.ofInt 128 lhs).sshiftRight rhs.toNat).toInt bits signed = _
  rw [BitVec.toInt_sshiftRight, hself, Int.shiftRight_eq_div_pow]
  show wrap (lhs / (2 : Int) ^ rhs.toNat) bits signed = _
  refine wrap_of_inBounds hbits ?_
  have hpow : (0 : Int) < 2 ^ rhs.toNat := Int.pow_pos (by decide)
  -- dividing by a power of two moves towards zero, or towards minus one
  have hlow : min lhs 0 ≤ lhs / 2 ^ rhs.toNat := by
    rcases Int.le_total 0 lhs with h | h
    · exact (min_le_right _ _).trans (Int.ediv_nonneg h (by omega))
    · refine (min_le_left _ _).trans ((Int.le_ediv_iff_mul_le hpow).mpr ?_)
      exact mul_le_of_one_le_right h (by omega)
  have hhigh : lhs / 2 ^ rhs.toNat ≤ max lhs (-1) := by
    rcases lt_or_ge lhs 0 with h | h
    · have := Int.ediv_neg_of_neg_of_pos h (show (0 : Int) < 2 ^ rhs.toNat by omega)
      omega
    · exact (Int.ediv_le_self _ h).trans (le_max_left _ _)
  have hzero : (bounds bits signed).1 ≤ 0 ∧ (signed = true → 0 ≤ (bounds bits signed).2) := by
    have hpos : (0 : Int) < 2 ^ (bits - 1) := Int.pow_pos (by decide)
    unfold bounds
    cases signed with
    | false => simp
    | true => simp only [if_true]; omega
  rw [inBounds_iff] at hl ⊢
  cases signed with
  | false =>
    have hnn : 0 ≤ lhs := hl.1
    have := Int.ediv_nonneg hnn (show (0 : Int) ≤ 2 ^ rhs.toNat by omega)
    exact ⟨this, (Int.ediv_le_self _ hnn).trans hl.2⟩
  | true =>
    have := hzero.2 rfl
    constructor <;> omega

/-! ## Every method -/

/-- Every method computes what it says, for operands in range. -/
theorem arithmeticMethod_computes (hbits : 0 < bits) (hle : bits ≤ 64) (method : IntegerMethod)
    (hl : inBounds bits signed lhs = true) (hr : method.Operand bits signed rhs) :
    method.Computes bits signed lhs rhs (arithmeticMethod method lhs rhs bits signed) := by
  obtain ⟨hl1, hl2, -, -⟩ := inBounds_narrow hle hl
  -- sums and differences are always within the intermediate
  have hadd : ∀ {r : Int}, -2 ^ 63 ≤ r ∧ r < 2 ^ 64 → i128Checked (lhs + r) = some (lhs + r) :=
    fun h => i128Checked_of_narrow (by omega) (by omega)
  have hsub : ∀ {r : Int}, -2 ^ 63 ≤ r ∧ r < 2 ^ 64 → i128Checked (lhs - r) = some (lhs - r) :=
    fun h => i128Checked_of_narrow (by omega) (by omega)
  have hnarr : ∀ {signed : Bool} {r : Int}, inBounds bits signed r = true →
      -2 ^ 63 ≤ r ∧ r < 2 ^ 64 :=
    fun h => ⟨(inBounds_narrow hle h).1, (inBounds_narrow hle h).2.1⟩
  have hnever : ∀ {e : Int} {Q : Prop}, i128Checked e = some e → i128Checked e = none → Q := by
    intro e Q hsome hnone
    rw [hsome] at hnone
    cases hnone
  have hmul : inBounds bits signed rhs = true → i128Checked (lhs * rhs) = none →
      (bounds bits signed).2 < lhs * rhs := fun h => mul_of_i128Checked hle hl h
  cases method with
  | wrappingAdd =>
    show (arithmeticMethod _ _ _ _ _).1 = _
    rw [arithmeticMethod_wrapped (by decide) (by decide)]
    exact wrap_exact hbits (hnever (hadd (hnarr hr)))
  | wrappingSub =>
    show (arithmeticMethod _ _ _ _ _).1 = _
    rw [arithmeticMethod_wrapped (by decide) (by decide)]
    exact wrap_exact hbits (hnever (hsub (hnarr hr)))
  | wrappingMul =>
    show (arithmeticMethod _ _ _ _ _).1 = _
    rw [arithmeticMethod_wrapped (by decide) (by decide)]
    exact wrap_exact hbits (fun _ => wrap_ofInt hbits hle _)
  | checkedAdd =>
    show outcome (arithmeticMethod _ _ _ _ _) = _
    rw [arithmeticMethod_wrapped (by decide) (by decide)]
    exact outcome_eq (hnever (hadd (hnarr hr))) hbits
  | checkedSub =>
    show outcome (arithmeticMethod _ _ _ _ _) = _
    rw [arithmeticMethod_wrapped (by decide) (by decide)]
    exact outcome_eq (hnever (hsub (hnarr hr))) hbits
  | checkedMul =>
    show outcome (arithmeticMethod _ _ _ _ _) = _
    rw [arithmeticMethod_wrapped (by decide) (by decide)]
    exact outcome_eq (hmul hr) hbits
  | checkedDiv => exact checkedDiv_outcome hbits hle hl
  | checkedRem => exact checkedRem_outcome hbits hle hl hr
  | overflowingAdd =>
    show arithmeticMethod _ _ _ _ _ = _
    rw [arithmeticMethod_wrapped (by decide) (by decide)]
    exact Prod.ext (wrap_exact hbits (hnever (hadd (hnarr hr))))
      (overflow_eq (hnever (hadd (hnarr hr))))
  | overflowingSub =>
    show arithmeticMethod _ _ _ _ _ = _
    rw [arithmeticMethod_wrapped (by decide) (by decide)]
    exact Prod.ext (wrap_exact hbits (hnever (hsub (hnarr hr))))
      (overflow_eq (hnever (hsub (hnarr hr))))
  | overflowingMul =>
    show arithmeticMethod _ _ _ _ _ = _
    rw [arithmeticMethod_wrapped (by decide) (by decide)]
    exact Prod.ext (wrap_exact hbits (fun _ => wrap_ofInt hbits hle _)) (overflow_eq (hmul hr))
  | saturatingAdd =>
    show (arithmeticMethod _ _ _ _ _).1 = _
    rw [arithmeticMethod_saturated (by decide)]
    exact clamp_eq_nearest (hnever (hadd (hnarr hr)))
  | saturatingSub =>
    show (arithmeticMethod _ _ _ _ _).1 = _
    rw [arithmeticMethod_saturated (by decide)]
    exact clamp_eq_nearest (hnever (hsub (hnarr hr)))
  | saturatingMul =>
    show (arithmeticMethod _ _ _ _ _).1 = _
    rw [arithmeticMethod_saturated (by decide)]
    exact clamp_eq_nearest (hmul hr)
  | wrappingAddSigned =>
    show (arithmeticMethod _ _ _ _ _).1 = _
    rw [arithmeticMethod_wrapped (by decide) (by decide)]
    refine wrap_exact hbits (hnever (hadd ?_))
    rcases hr with h | h
    · exact hnarr h
    · exact hnarr h
  | rotateLeft =>
    show (arithmeticMethod _ _ _ _ _).1 = _
    rw [arithmeticMethod_rotated (by decide), rotation_count hbits hle hr]
    dsimp only
    rw [rotation_eq hbits hle (Nat.mod_lt _ hbits), if_pos rfl, BitVec.rotateLeft_mod_eq_rotateLeft]
  | rotateRight =>
    show (arithmeticMethod _ _ _ _ _).1 = _
    rw [arithmeticMethod_rotated (by decide), rotation_count hbits hle hr]
    dsimp only
    rw [rotation_eq hbits hle (Nat.mod_lt _ hbits), if_neg (by decide),
      BitVec.rotateRight_mod_eq_rotateRight]

/-- Every result is in the range of the type, whatever the operands. -/
theorem arithmeticMethod_inBounds (hbits : 0 < bits) (method : IntegerMethod) :
    inBounds bits signed (arithmeticMethod method lhs rhs bits signed).1 = true := by
  by_cases hrot : method = .rotateLeft ∨ method = .rotateRight
  · rw [arithmeticMethod_rotated hrot]
    exact wrap_inBounds hbits _
  · by_cases hsat : method = .saturatingAdd ∨ method = .saturatingSub ∨ method = .saturatingMul
    · rw [arithmeticMethod_saturated hsat, inBounds_iff]
      have hle : (bounds bits signed).1 ≤ (bounds bits signed).2 := bounds_le
      unfold clamp
      dsimp only
      split
      · exact ⟨Int.le_refl _, hle⟩
      · split
        · exact ⟨hle, Int.le_refl _⟩
        · omega
    · rw [arithmeticMethod_wrapped hrot hsat]
      exact wrap_inBounds hbits _

/-- The operation of `integer_operation` for a checked operation. -/
def IntegerBinaryOp.integerOp : IntegerBinaryOp → IntegerOp
  | .add => .checkedAdd
  | .sub => .checkedSub
  | .mul => .checkedMul
  | .div => .checkedDiv
  | .rem => .checkedRem

theorem integerOperation_toOption (hbits : bits ∈ [8, 16, 32, 64])
    (op : IntegerBinaryOp) :
    (integerOperation op.integerOp lhs rhs bits signed).toOption =
      (fixedBinary op lhs rhs bits signed).toOption := by
  have hmap : ∀ r : Except ArithmeticError Int,
      (r.mapError ArithmeticError.message).toOption = r.toOption := by
    intro r
    cases r with
    | error e => rfl
    | ok v => rfl
  unfold integerOperation
  rw [if_neg (not_not.mpr hbits)]
  cases op with
  | add => exact hmap _
  | sub => exact hmap _
  | mul => exact hmap _
  | div => exact hmap _
  | rem => exact hmap _

end Exact

/-- Every arithmetic method agrees with the mathematical integers, its result is in the range of the
receiver's type, and the checked methods agree with `fixed_binary` and `integer_operation`. The
shifts of `integer_operation` are exact for a count below the width and refused for every other. -/
theorem arithmeticMethod_exact (domain : IntegerType) (method : IntegerMethod) {lhs rhs : Int}
    (hl : inBounds domain.layout.1 domain.layout.2 lhs = true)
    (hr : method.Operand domain.layout.1 domain.layout.2 rhs) :
    let bits := domain.layout.1
    let signed := domain.layout.2
    let out := arithmeticMethod method lhs rhs bits signed
    method.Computes bits signed lhs rhs out ∧ inBounds bits signed out.1 = true ∧
    (∀ op, method.checkedOp = some op →
      outcome out = (fixedBinary op lhs rhs bits signed).toOption ∧
      outcome out = (integerOperation op.integerOp lhs rhs bits signed).toOption) ∧
    ∀ count : Int,
      (0 ≤ count ∧ count < bits →
        integerOperation .shl lhs count bits signed = .ok (residue bits signed (lhs * 2 ^ count.toNat)) ∧
        integerOperation .shr lhs count bits signed = .ok (lhs / 2 ^ count.toNat)) ∧
      (count < 0 ∨ bits ≤ count →
        integerOperation .shl lhs count bits signed = .error "integer shift out of range" ∧
        integerOperation .shr lhs count bits signed = .error "integer shift out of range") := by
  have hmem := domain.layout_mem
  generalize domain.layout = layout at hl hr hmem ⊢
  obtain ⟨bits, signed⟩ := layout
  dsimp only at hl hr hmem ⊢
  have hrng : 0 < bits ∧ bits ≤ 64 := by
    simp only [List.mem_cons, List.not_mem_nil, or_false] at hmem
    omega
  obtain ⟨hbits, hle⟩ := hrng
  have hcomp := arithmeticMethod_computes hbits hle method hl hr
  refine ⟨hcomp, arithmeticMethod_inBounds hbits method, fun op hop => ?_, fun count => ⟨?_, ?_⟩⟩
  · have hrhs : inBounds bits signed rhs = true := by
      cases method <;> first | exact hr | cases hop
    have houtc : outcome (arithmeticMethod method lhs rhs bits signed) =
        definedAt bits signed op lhs rhs := by
      cases method <;> cases hop <;> exact hcomp
    rw [houtc, integerOperation_toOption hmem, fixedBinary_eq hmem hl hrhs,
      nativeBinary_toOption]
    exact ⟨rfl, rfl⟩
  · rintro ⟨hlow, hhigh⟩
    have hin : ¬(count < 0 ∨ (bits : Int) ≤ count) := by omega
    constructor
    · unfold integerOperation
      rw [if_neg (not_not.mpr hmem), if_neg (fun h => hin h.2)]
      exact congrArg Except.ok (shl_eq hbits hle)
    · unfold integerOperation
      rw [if_neg (not_not.mpr hmem), if_neg (fun h => hin h.2)]
      exact congrArg Except.ok (shr_eq hbits hle hl)
  · intro hout
    unfold integerOperation
    rw [if_neg (not_not.mpr hmem), if_pos ⟨.inl rfl, hout⟩, if_neg (not_not.mpr hmem),
      if_pos ⟨.inr rfl, hout⟩]
    exact ⟨rfl, rfl⟩

/-- The largest product of `u64`, which the intermediate does not have. -/
theorem arithmeticMethod_exact_u64 :
    arithmeticMethod .wrappingMul (2 ^ 64 - 1) (2 ^ 64 - 1) 64 false = (1, true) ∧
      IntegerMethod.Computes .wrappingMul 64 false (2 ^ 64 - 1) (2 ^ 64 - 1)
        (arithmeticMethod .wrappingMul (2 ^ 64 - 1) (2 ^ 64 - 1) 64 false) :=
  ⟨by decide +kernel, (arithmeticMethod_exact .u64 .wrappingMul (by decide)
    (show inBounds 64 false (2 ^ 64 - 1) = true by decide)).1⟩

end Kagari
