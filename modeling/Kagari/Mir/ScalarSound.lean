import Kagari.Mir.Constants
import Kagari.Mir.Interpreter

/-!
# Folding agrees with the interpreter

A scalar and its payload. Where folding finds the value of a unary, binary or numeric operation, the
operation that prepared code selects evaluates the payloads of the operands to the payload of that
value, without a trap (`unary_sound`, `binary_sound`, `numeric_sound`).
-/

namespace Kagari.Mir

open Lib Kagari.Runtime Option

variable {c : Scalar} {cond : Comparison} {domain : IntegerType} {holds : Bool} {kind : BuiltinType}
  {lhs : MirValue} {ordering : Ordering} {signature : NumericSignature} {v : Int}

namespace Scalar

variable {H : Type}

def ty : Scalar → ValueType
  | .unit => .unit
  | .bool _ => .bool
  | .i32 _ => .i32
  | .i64 _ => .i64
  | .u64 _ => .u64
  | .char _ => .char

def value : Scalar → Value H
  | .unit => .unit
  | .bool value => .bool value
  | .i32 value => .i32 value.toBitVec
  | .i64 value => .i64 value.toBitVec
  | .u64 value => .u64 value.toBitVec
  | .char value => .char value

def payload : Scalar → BitVec 64
  | .unit => 0
  | .bool value => boolPayload value
  | .i32 value => value.toBitVec.signExtend 64
  | .i64 value => value.toBitVec
  | .u64 value => value.toBitVec
  | .char value => BitVec.ofNat 64 value.toNat

@[simp] theorem encode_value (c : Scalar) : (c.value : Value H).encode = some c.payload := by
  cases c <;> rfl

@[simp] theorem constant_value {P W : Type} (w : World P H W) (c : Scalar) :
    w.constant c.constant = c.value := by
  cases c <;> rfl

theorem scalarType_ty (c : Scalar) : (scalarType c.ty).isSome := by
  cases c <;> rfl

theorem constant_ty (c : Scalar) : c.constant.ty = c.ty := by
  cases c <;> rfl

theorem fromConstant_some {constant : Constant} (h : fromConstant constant = some c) :
    constant = c.constant ∧ constant.ty = c.ty := by
  cases constant <;> cases h <;> exact ⟨rfl, rfl⟩

/-! ## Integers -/

theorem inBounds_i32 (value : Int32) : inBounds 32 true value.toInt = true := by
  have hlt := value.toInt_lt
  have hle := value.le_toInt
  rw [inBounds_iff]
  show -2 ^ 31 ≤ value.toInt ∧ value.toInt ≤ 2 ^ 31 - 1
  omega

theorem inBounds_i64 (value : Int64) : inBounds 64 true value.toInt = true := by
  have hlt := value.toInt_lt
  have hle := value.le_toInt
  rw [inBounds_iff]
  show -2 ^ 63 ≤ value.toInt ∧ value.toInt ≤ 2 ^ 63 - 1
  omega

/-- The integer of a payload, in the domain that it was read in. -/
theorem decodeInteger_payload
    (hrep : c.representation = some (builtinRepresentation domain.builtinType))
    (hint : c.integer = some v) (hin : inBounds domain.layout.1 domain.layout.2 v = true) :
    decodeInteger c.payload domain = .ok v := by
  unfold decodeInteger decodeIntegerDomain
  have hval : (if domain.layout.2 = true then c.payload.toInt else (c.payload.toNat : Int)) = v := by
    cases c with
    | i32 value =>
      cases hint
      have hsgn : domain.layout.2 = true := by
        cases domain <;> first | rfl | cases hrep
      rw [if_pos hsgn]
      exact BitVec.toInt_signExtend_of_le (by decide)
    | i64 value =>
      cases hint
      by_cases hsgn : domain.layout.2 = true
      · rw [if_pos hsgn]
        rfl
      · -- an unsigned domain below 64 bits: the sign bit is clear
        rw [if_neg hsgn]
        have hnn : 0 ≤ value.toInt := by
          rw [inBounds_iff, Bool.not_eq_true] at *
          rw [hsgn] at hin
          exact hin.1
        change 0 ≤ value.toBitVec.toInt at hnn
        show (value.toBitVec.toNat : Int) = value.toBitVec.toInt
        have hlt := value.toBitVec.isLt
        rw [BitVec.toInt_eq_toNat_cond] at hnn ⊢
        split at hnn
        · rw [if_pos (by assumption)]
        · omega
    | u64 value =>
      cases hint
      have huns : domain.layout.2 = false := by
        cases domain <;> first | rfl | cases hrep
      rw [huns]
      rfl
    | unit => cases hint
    | bool _ => cases hint
    | char _ => cases hint
  dsimp only
  rw [hval, if_pos hin]

/-- A domain in its representation. -/
theorem ofInteger_domain
    (h : ofInteger (builtinRepresentation domain.builtinType) v = some c) :
    c.ty = builtinRepresentation domain.builtinType ∧
      decode (builtinRepresentation domain.builtinType) (integerPayload v) = some (c.value : Value H) := by
  have hi32 : ofInteger .i32 v = some c → c.ty = .i32 ∧
      decode .i32 (integerPayload v) = some (c.value : Value H) := by
    intro h
    unfold ofInteger at h
    dsimp only at h
    split at h
    · cases h
      refine ⟨rfl, ?_⟩
      show some (Value.i32 ((BitVec.ofInt 64 v).setWidth 32)) = some (.i32 (BitVec.ofInt 32 v))
      refine congrArg (fun bits => some (Value.i32 bits)) (BitVec.eq_of_toNat_eq ?_)
      rw [BitVec.toNat_setWidth, BitVec.toNat_ofInt, BitVec.toNat_ofInt]
      omega
    · cases h
  have hi64 : ofInteger .i64 v = some c → c.ty = .i64 ∧
      decode .i64 (integerPayload v) = some (c.value : Value H) := by
    intro h
    unfold ofInteger at h
    dsimp only at h
    split at h
    · cases h
      exact ⟨rfl, rfl⟩
    · cases h
  have hu64 : ofInteger .u64 v = some c → c.ty = .u64 ∧
      decode .u64 (integerPayload v) = some (c.value : Value H) := by
    intro h
    unfold ofInteger at h
    dsimp only at h
    split at h
    · rename_i hin
      cases h
      refine ⟨rfl, ?_⟩
      have hnn : 0 ≤ v := (inBounds_iff.mp hin).1
      show some (Value.u64 (BitVec.ofInt 64 v)) = some (.u64 (BitVec.ofNat 64 v.toNat))
      rw [← BitVec.ofInt_natCast, Int.toNat_of_nonneg hnn]
    · cases h
  cases domain with
  | i8 => exact hi32 h
  | i16 => exact hi32 h
  | i32 => exact hi32 h
  | i64 => exact hi64 h
  | u8 => exact hi64 h
  | u16 => exact hi64 h
  | u32 => exact hi64 h
  | u64 => exact hu64 h

theorem fromBuiltin_some
    (h : IntegerType.fromBuiltin kind = some domain) : domain.builtinType = kind := by
  cases kind <;> cases h <;> rfl

/-- A scalar that was read as an integer of a type. -/
structure Read (c : Scalar) (kind : BuiltinType) (v : Int) (domain : IntegerType) : Prop where
  builtin : IntegerType.fromBuiltin kind = some domain
  ty : c.ty = builtinRepresentation kind
  inBounds : inBounds domain.layout.1 domain.layout.2 v = true
  decoded : decodeInteger c.payload domain = .ok v

theorem ty_of_representation {ty : ValueType} (h : c.representation = some ty) :
    c.ty = ty := by
  cases c <;> cases h <;> rfl

theorem readInteger_some
    (h : c.readInteger kind = some v) : ∃ domain, Read c kind v domain := by
  unfold readInteger at h
  obtain ⟨rep, hrep, h⟩ := bind_eq_some_iff.mp h
  split at h
  · cases h
  · rename_i heq
    obtain ⟨value, hval, h⟩ := bind_eq_some_iff.mp h
    obtain ⟨⟨bits, signed⟩, hlay, h⟩ := bind_eq_some_iff.mp h
    obtain ⟨domain, hdom, hlay⟩ := map_eq_some_iff.mp hlay
    dsimp only at h
    split at h
    · rename_i hin
      obtain rfl := some.inj h
      rw [not_not] at heq
      subst heq
      have hkind := fromBuiltin_some hdom
      have hbnds : Kagari.inBounds domain.layout.1 domain.layout.2 value = true := by
        rw [hlay]
        exact hin
      refine ⟨domain, hdom, ty_of_representation hrep, hbnds, ?_⟩
      exact decodeInteger_payload (by rw [hkind, hrep]) hval hbnds
    · cases h

/-! ## Operations -/

section Operations

variable {P W : Type} (w : World P H W)

theorem evaluate_pair (operation : ScalarOperation) (ty : ValueType) (c d : Scalar) :
    w.evaluate operation ty [c.value, d.value] =
      (operation.evaluate w.floats c.payload d.payload).toOption.bind (decode ty) := by
  simp [World.evaluate]

theorem evaluate_one (operation : ScalarOperation) (ty : ValueType) (c : Scalar) :
    w.evaluate operation ty [c.value] =
      (operation.evaluate w.floats c.payload c.payload).toOption.bind (decode ty) := by
  simp [World.evaluate]

/-- What a payload operation with a result in a domain writes. -/
theorem decode_result {r : Scalar}
    {result : Except String (BitVec 64)} (hrun : result = .ok (integerPayload v))
    (hr : ofInteger (builtinRepresentation domain.builtinType) v = some r) :
    result.toOption.bind (decode (builtinRepresentation domain.builtinType)) =
      some (r.value : Value H) := by
  rw [hrun]
  exact (ofInteger_domain hr).2

theorem toOption_some {ε α : Type} {e : Except ε α} {a : α} (h : e.toOption = some a) : e = .ok a := by
  cases e with
  | error _ => cases h
  | ok _ => exact congrArg _ (some.inj h)

/-- The operands of a numeric operation. -/
def operands (c : Scalar) (rhs : Option Scalar) : List (Value H) := c.value :: (rhs.map value).toList

variable {operation : NumericOperation}

/-- The domain of the second operand: none of a complement, any of a shift, else that of the first. -/
theorem contract_some
    (h : operation.contract = some signature) :
    (operation.op = .bitNot ∧ operation.rhs = none) ∨
    ((operation.op = .shl ∨ operation.op = .shr) ∧ operation.rhs.isSome) ∨
    (operation.op ≠ .bitNot ∧ operation.op ≠ .shl ∧ operation.op ≠ .shr ∧
      operation.rhs = some operation.input) := by
  obtain ⟨op, input, rhs⟩ := operation
  unfold NumericOperation.contract at h
  dsimp only at h ⊢
  split at h
  · cases h
  · split at h
    · rename_i hop
      split at h
      · cases h
      · rename_i hnone
        exact .inl ⟨hop, by simpa using hnone⟩
    · rename_i hop
      split at h
      · cases h
      · split at h
        · cases h
        · split at h
          · cases h
          · rename_i hshf
            by_cases hop' : op = .shl ∨ op = .shr
            · exact .inr (.inl ⟨hop', rfl⟩)
            · have heq : _ = input := by_contra fun hne => hshf ⟨hop', hne⟩
              exact .inr (.inr ⟨hop, fun h => hop' (.inl h), fun h => hop' (.inr h), by rw [heq]⟩)

theorem numeric_sound {c r : Scalar} {rhs : Option Scalar}
    (h : c.numeric operation rhs = some r) :
    ∃ selected, ScalarOperation.integerOf operation.op operation.input operation.rhs = some selected ∧
      r.ty = builtinRepresentation operation.input ∧
      w.evaluate selected (builtinRepresentation operation.input) (operands c rhs) = some r.value := by
  obtain ⟨op, input, kind⟩ := operation
  unfold numeric at h
  obtain ⟨signature, hctr, h⟩ := bind_eq_some_iff.mp h
  obtain ⟨left, hleft, h⟩ := bind_eq_some_iff.mp h
  obtain ⟨right, hrt, h⟩ := bind_eq_some_iff.mp h
  obtain ⟨⟨bits, signed⟩, hlay, h⟩ := bind_eq_some_iff.mp h
  obtain ⟨v, hv, hr⟩ := bind_eq_some_iff.mp h
  dsimp only at hrt hlay hr hv ⊢
  obtain ⟨domain, hdom, hlay⟩ := map_eq_some_iff.mp hlay
  have hbits : bits = domain.layout.1 := by rw [hlay]
  have hsgn : signed = domain.layout.2 := by rw [hlay]
  rw [hbits, hsgn] at hv
  obtain rfl := fromBuiltin_some hdom
  obtain ⟨domain', hl⟩ := readInteger_some hleft
  obtain rfl : domain = domain' := some.inj (hdom.symm.trans hl.builtin)
  have hrun := toOption_some hv
  have hty := (ofInteger_domain (H := H) hr).1
  rcases contract_some hctr with ⟨hop, hkind⟩ | ⟨hop, hkind⟩ | ⟨hnot, hshl, hshr, hkind⟩
  · dsimp only at hop hkind
    subst hop hkind
    obtain ⟨rfl, rfl⟩ : rhs = none ∧ right = 0 := by
      cases rhs with
      | none => exact ⟨rfl, (some.inj hrt).symm⟩
      | some _ => cases hrt
    refine ⟨.bitNot domain, by simp [ScalarOperation.integerOf, hdom], hty, ?_⟩
    refine (evaluate_one w _ _ c).trans (decode_result ?_ hr)
    simp [ScalarOperation.evaluate, evaluateBitNot, hl.decoded, hrun]
  · dsimp only at hop hkind
    obtain ⟨count, rfl⟩ := isSome_iff_exists.mp hkind
    obtain ⟨d, rfl⟩ : ∃ d, rhs = some d := by
      cases rhs with
      | none => cases hrt
      | some d => exact ⟨d, rfl⟩
    obtain ⟨countDomain, hd⟩ := readInteger_some hrt
    have hnew : ∃ kind, ShiftKind.new domain op = some kind ∧ kind.parts = (domain, op) := by
      rcases hop with rfl | rfl
      · exact ⟨⟨domain, false⟩, rfl, rfl⟩
      · exact ⟨⟨domain, true⟩, rfl, rfl⟩
    obtain ⟨kind, hnew, hpts⟩ := hnew
    refine ⟨.shift kind countDomain, ?_, hty, ?_⟩
    · rcases hop with rfl | rfl
      · simp [ScalarOperation.integerOf, hdom, hnew, hd.builtin]
      · simp [ScalarOperation.integerOf, hdom, hnew, hd.builtin]
    · refine (evaluate_pair w _ _ c d).trans (decode_result ?_ hr)
      simp [ScalarOperation.evaluate, evaluateShift, hpts, hl.decoded, hd.decoded, hrun]
  · dsimp only at hnot hshl hshr hkind
    subst hkind
    obtain ⟨d, rfl⟩ : ∃ d, rhs = some d := by
      cases rhs with
      | none => cases hrt
      | some d => exact ⟨d, rfl⟩
    obtain ⟨domain', hd⟩ := readInteger_some hrt
    obtain rfl : domain = domain' := some.inj (hdom.symm.trans hd.builtin)
    refine ⟨.integer domain op, ?_, hty, ?_⟩
    · cases op <;> simp_all [ScalarOperation.integerOf]
    · refine (evaluate_pair w _ _ c d).trans (decode_result ?_ hr)
      simp [ScalarOperation.evaluate, evaluateInteger, hl.decoded, hd.decoded, hrun]

theorem evaluateInteger_ok {op : IntegerOp} {lhs rhs : BitVec 64}
    {left right v : Int} (hl : decodeInteger lhs domain = .ok left)
    (hr : decodeInteger rhs domain = .ok right)
    (hop : integerOperation op left right domain.layout.1 domain.layout.2 = .ok v) :
    evaluateInteger op domain lhs rhs = .ok (integerPayload v) := by
  unfold evaluateInteger
  rw [hl, hr]
  show (integerOperation op left right domain.layout.1 domain.layout.2).bind _ = _
  rw [hop]
  rfl

/-- The checked operations are the native ones. -/
theorem integerOperation_checked {arithmetic : IntegerBinaryOp}
    {left right v : Int} (hl : inBounds domain.layout.1 domain.layout.2 left = true)
    (hr : inBounds domain.layout.1 domain.layout.2 right = true)
    (h : nativeBinary domain.layout.1 domain.layout.2 arithmetic left right = .ok v) :
    integerOperation (checkedOp arithmetic) left right domain.layout.1 domain.layout.2 = .ok v := by
  have hshf : ¬(checkedOp arithmetic = .shl ∨ checkedOp arithmetic = .shr) := by
    cases arithmetic <;> decide
  have harithmetic : (checkedOp arithmetic).arithmetic = some arithmetic := by
    cases arithmetic <;> rfl
  unfold integerOperation
  rw [if_neg (not_not.mpr domain.layout_mem), if_neg (fun h => hshf h.1), harithmetic]
  dsimp only
  rw [fixedBinary_eq domain.layout_mem hl hr, h]
  rfl

/-- A checked operation on two integers of one of the native representations. -/
theorem native_sound (c d : Scalar) (arithmetic : IntegerBinaryOp) (domain : IntegerType)
    {left right v : Int} {r : Scalar} (hc : decodeInteger c.payload domain = .ok left)
    (hd : decodeInteger d.payload domain = .ok right)
    (hl : inBounds domain.layout.1 domain.layout.2 left = true)
    (hr : inBounds domain.layout.1 domain.layout.2 right = true)
    (h : nativeBinary domain.layout.1 domain.layout.2 arithmetic left right = .ok v)
    (hv : ofInteger (builtinRepresentation domain.builtinType) v = some r) :
    (evaluateInteger (checkedOp arithmetic) domain c.payload d.payload).toOption.bind
      (decode (builtinRepresentation domain.builtinType)) = some (r.value : Value H) :=
  decode_result (evaluateInteger_ok hc hd (integerOperation_checked hl hr h)) hv

theorem decode_i32 (value : Int32) : decodeInteger (Scalar.i32 value).payload .i32 = .ok value.toInt :=
  decodeInteger_payload rfl rfl (inBounds_i32 value)

theorem decode_i64 (value : Int64) : decodeInteger (Scalar.i64 value).payload .i64 = .ok value.toInt :=
  decodeInteger_payload rfl rfl (inBounds_i64 value)

theorem inBounds_u64 (value : UInt64) : inBounds 64 false value.toNat = true := by
  have hlt := value.toNat_lt
  rw [inBounds_iff]
  show (0 : Int) ≤ value.toNat ∧ (value.toNat : Int) ≤ 2 ^ 64 - 1
  omega

theorem decode_u64 (value : UInt64) :
    decodeInteger (Scalar.u64 value).payload .u64 = .ok (value.toNat : Int) :=
  decodeInteger_payload rfl rfl (inBounds_u64 value)

theorem ofInteger_i32 (h : inBounds 32 true v = true) :
    ofInteger .i32 v = some (.i32 (Int32.ofInt v)) :=
  if_pos h

theorem ofInteger_i64 (h : inBounds 64 true v = true) :
    ofInteger .i64 v = some (.i64 (Int64.ofInt v)) :=
  if_pos h

theorem unary_sound {c r : Scalar} {op : UnaryOp} (h : c.unary op = some r) (dst operand : MirValue)
    (hopnd : operand.ty = c.ty) :
    r.ty = c.ty ∧ ∃ selected, selectOperation (.unary dst op operand : Instruction P) = some selected ∧
      w.evaluate selected c.ty [c.value] = some r.value := by
  unfold unary at h
  split at h
  · rename_i value
    cases h
    refine ⟨rfl, .boolNot, rfl, ?_⟩
    rw [evaluate_one]
    cases value <;> rfl
  · rename_i value
    obtain ⟨v, hv, rfl⟩ := map_eq_some_iff.mp h
    have hrun := toOption_some hv
    obtain ⟨rfl, hin⟩ := checked_ok hrun
    refine ⟨rfl, .i32Neg, by simp [selectOperation, hopnd, ty, scalarType]; rfl, ?_⟩
    rw [evaluate_one]
    -- zero is the payload of the scalar zero
    refine native_sound (.i32 0) (.i32 value) .sub .i32
      (decode_i32 0) (decode_i32 value) (inBounds_i32 0) (inBounds_i32 value) ?_ (ofInteger_i32 hin)
    show checked 32 true (0 - value.toInt) = _
    rw [Int.zero_sub]
    exact hrun
  · rename_i value
    obtain ⟨v, hv, rfl⟩ := map_eq_some_iff.mp h
    have hrun := toOption_some hv
    obtain ⟨rfl, hin⟩ := checked_ok hrun
    refine ⟨rfl, .i64Neg, by simp [selectOperation, hopnd, ty, scalarType]; rfl, ?_⟩
    rw [evaluate_one]
    refine native_sound (.i64 0) (.i64 value) .sub .i64
      (decode_i64 0) (decode_i64 value) (inBounds_i64 0) (inBounds_i64 value) ?_ (ofInteger_i64 hin)
    show checked 64 true (0 - value.toInt) = _
    rw [Int.zero_sub]
    exact hrun
  · cases h

/-- The comparisons of the language, as conditions. -/
def comparisonOf : BinaryOp → Option Comparison
  | .eq => some .eq
  | .notEq => some .notEq
  | .lt => some .lt
  | .le => some .le
  | .gt => some .gt
  | .ge => some .ge
  | _ => none

variable {op : BinaryOp}

theorem condition_test {α : Type} [LinearOrder α]
    (h : comparisonOf op = some cond) (a b : α) :
    condition op (compare a b) = some (cond.test a b) := by
  rcases lt_trichotomy a b with hab | rfl | hab
  · rw [compare_lt_iff_lt.mpr hab]
    cases op <;> cases h <;> simp [condition, Comparison.test, hab, hab.le, hab.ne, hab.not_gt]
  · rw [compare_eq_iff_eq.mpr rfl]
    cases op <;> cases h <;> simp [condition, Comparison.test]
  · rw [compare_gt_iff_gt.mpr hab]
    cases op <;> cases h <;> simp [condition, Comparison.test, hab, hab.le, hab.ne', hab.not_gt]

theorem test_natCast (cond : Comparison) (a b : Nat) : cond.test (a : Int) b = cond.test a b := by
  cases cond <;> simp [Comparison.test]

theorem toNat_char (value : Char) : (Scalar.char value).payload.toNat = value.toNat := by
  have hlt : value.toNat < 2 ^ 64 := lt_trans value.val.toNat_lt (by decide)
  show (BitVec.ofNat 64 value.toNat).toNat = value.toNat
  rw [BitVec.toNat_ofNat, Nat.mod_eq_of_lt hlt]

theorem unicodePayload_char (value : Char) : unicodePayload (Scalar.char value).payload = true := by
  unfold unicodePayload
  rw [toNat_char]
  exact decide_eq_true value.valid

theorem comparisonOf_of_condition
    (h : condition op ordering = some holds) : ∃ cond, comparisonOf op = some cond := by
  cases op <;> cases h <;> exact ⟨_, rfl⟩

/-- A comparison selects the domain of its operands. -/
theorem select_comparison (h : comparisonOf op = some cond)
    (dst rhs : MirValue) {input : BuiltinType} (hlhs : scalarType lhs.ty = some input)
    {domain : ComparisonDomain} (hdom : ComparisonDomain.of input cond = some domain) :
    selectOperation (.binary dst op lhs rhs : Instruction P) = some (.compare domain cond) := by
  cases op <;> cases h <;>
    simp [selectOperation, BinaryOp.scalar, hlhs, ScalarOperation.binary, ScalarBinaryOp.condition,
      hdom]

theorem decode_bool (holds : Bool) :
    decode .bool (boolPayload holds) = some (Value.bool holds : Value H) := by
  cases holds <;> rfl

/-- Units and booleans are only equal or different. -/
theorem comparison_eq_or_ne {ty result : ValueType}
    (h : comparisonOf op = some cond) (hty : ty = .unit ∨ ty = .bool)
    (hres : binaryResult op ty ty = .ok result) : cond = .eq ∨ cond = .notEq := by
  cases op <;> cases h <;> rcases hty with rfl | rfl <;> first | exact .inl rfl | exact .inr rfl | skip
  all_goals cases hres

theorem comparison_sound {c d : Scalar}
    (hcmp : c.comparison d = some ordering) (hhld : condition op ordering = some holds)
    {result : ValueType} (hres : binaryResult op c.ty c.ty = .ok result) (dst rhs : MirValue)
    (hlhs : lhs.ty = c.ty) :
    ∃ selected, selectOperation (.binary dst op lhs rhs : Instruction P) = some selected ∧
      w.evaluate selected .bool [c.value, d.value] = some (.bool holds) := by
  obtain ⟨cond, hcond⟩ := comparisonOf_of_condition hhld
  have hselect : ∀ (input : BuiltinType) (domain : ComparisonDomain),
      scalarType c.ty = some input → ComparisonDomain.of input cond = some domain →
      domain.evaluate w.floats cond c.payload d.payload = .ok (boolPayload holds) →
      ∃ selected, selectOperation (.binary dst op lhs rhs : Instruction P) = some selected ∧
        w.evaluate selected .bool [c.value, d.value] = some (.bool holds) := by
    intro input domain hinp hdom hrun
    refine ⟨_, select_comparison hcond dst rhs (hlhs ▸ hinp) hdom, ?_⟩
    rw [evaluate_pair]
    show (domain.evaluate w.floats cond c.payload d.payload).toOption.bind _ = _
    rw [hrun]
    exact decode_bool holds
  have hscal : c.ty = .unit ∨ c.ty = .bool →
      condition op (compare c.payload.toNat d.payload.toNat) = some holds →
      ∃ selected, selectOperation (.binary dst op lhs rhs : Instruction P) = some selected ∧
        w.evaluate selected .bool [c.value, d.value] = some (.bool holds) := by
    intro hty hhld
    have hcase : cond = .eq ∨ cond = .notEq := by
      rcases hty with hty | hty <;> rw [hty] at hres
      · exact comparison_eq_or_ne hcond (.inl rfl) hres
      · exact comparison_eq_or_ne hcond (.inr rfl) hres
    rw [condition_test hcond] at hhld
    have hrun : ComparisonDomain.scalar.evaluate w.floats cond c.payload d.payload =
        .ok (boolPayload holds) :=
      congrArg (fun holds => Except.ok (boolPayload holds)) (some.inj hhld)
    rcases hty with hty | hty
    · exact hselect .unit .scalar (by rw [hty]; rfl) (if_pos hcase) hrun
    · exact hselect .bool .scalar (by rw [hty]; rfl) (if_pos hcase) hrun
  unfold comparison at hcmp
  split at hcmp
  · cases hcmp
    exact hscal (.inl rfl) hhld
  · rename_i a b
    cases hcmp
    refine hscal (.inr rfl) ?_
    cases a <;> cases b <;> exact hhld
  · rename_i a b
    cases hcmp
    rw [condition_test hcond] at hhld
    refine hselect .i32 .i32 rfl rfl ?_
    simp [ComparisonDomain.evaluate, decode_i32, some.inj hhld]
  · rename_i a b
    cases hcmp
    rw [condition_test hcond] at hhld
    refine hselect .i64 .i64 rfl rfl ?_
    simp [ComparisonDomain.evaluate, decode_i64, some.inj hhld]
  · rename_i a b
    cases hcmp
    rw [condition_test hcond] at hhld
    refine hselect .u64 .u64 rfl rfl ?_
    simp [ComparisonDomain.evaluate, decode_u64, test_natCast, some.inj hhld]
  · rename_i a b
    cases hcmp
    rw [condition_test hcond] at hhld
    refine hselect .char .char rfl rfl ?_
    simp [ComparisonDomain.evaluate, unicodePayload_char, toNat_char, some.inj hhld]
  · cases hcmp

theorem expectType_ok {found expected : ValueType} {label : String}
    (h : expectType found expected label = .ok ()) : found = expected := by
  unfold expectType at h
  split at h
  · assumption
  · cases h

/-- The result of an operation on operands of one representation. -/
theorem binaryResult_plain (hop : ∀ operation, op ≠ .numeric operation)
    {lhs rhs ty : ValueType} (h : binaryResult op lhs rhs = .ok ty) :
    rhs = lhs ∧ ((comparisonOf op).isSome → ty = .bool) ∧ ((arithmetic op).isSome → ty = lhs) := by
  have hrhs : rhs = lhs := by
    by_contra hne
    cases op <;> simp [binaryResult, expectType, hne, bind, Except.bind] at h
    exact hop _ rfl
  subst hrhs
  refine ⟨rfl, fun hcmp => ?_, fun harith => ?_⟩
  · cases op <;> cases hcmp <;> cases rhs <;> first | cases h; rfl | cases h
  · cases op <;> cases harith <;> cases rhs <;> first | cases h; rfl | cases h

theorem contract_output
    (h : operation.contract = some signature) :
    signature.left = .builtin operation.input ∧ signature.output = .builtin operation.input := by
  unfold NumericOperation.contract at h
  dsimp only at h
  repeat' split at h
  all_goals cases h
  all_goals exact ⟨rfl, rfl⟩

theorem binaryResult_numeric {lhs rhs ty : ValueType}
    (h : binaryResult (.numeric operation) lhs rhs = .ok ty) :
    ty = builtinRepresentation operation.input := by
  unfold binaryResult at h
  dsimp only at h
  split at h
  · cases h
  · rename_i signature hctr
    split at h
    · cases h
    · obtain ⟨-, -, h⟩ := bind_ok.mp h
      obtain ⟨-, -, h⟩ := bind_ok.mp h
      cases h
      rw [(contract_output hctr).2]
      rfl

/-- Arithmetic that folds. -/
theorem arithmetic_sound {c d r : Scalar} {arith : IntegerBinaryOp}
    (harith : arithmetic op = some arith) (h : c.native d arith = some r) (dst rhs : MirValue)
    (hlhs : lhs.ty = c.ty) :
    r.ty = c.ty ∧ ∃ selected,
      selectOperation (.binary dst op lhs rhs : Instruction P) = some selected ∧
      w.evaluate selected c.ty [c.value, d.value] = some r.value := by
  have hselect : ∀ domain : IntegerType, (domain = .i32 ∨ domain = .i64 ∨ domain = .u64) →
      scalarType c.ty = some domain.builtinType →
      selectOperation (.binary dst op lhs rhs : Instruction P) =
        some (.integer domain (checkedOp arith)) := by
    intro domain hdom hscal
    rw [← hlhs] at hscal
    rcases hdom with rfl | rfl | rfl <;> cases op <;> cases harith <;>
      · simp only [selectOperation, BinaryOp.scalar, bind_eq_bind, bind_some, hscal]
        rfl
  unfold native at h
  split at h
  · rename_i a b
    obtain ⟨v, hv, rfl⟩ := map_eq_some_iff.mp h
    have hrun := toOption_some hv
    have hin := nativeBinary_inBounds (inBounds_i32 a) hrun
    refine ⟨rfl, _, hselect .i32 (.inl rfl) rfl, ?_⟩
    rw [evaluate_pair]
    exact native_sound (.i32 a) (.i32 b) arith .i32 (decode_i32 a) (decode_i32 b) (inBounds_i32 a)
      (inBounds_i32 b) hrun (ofInteger_i32 hin)
  · rename_i a b
    obtain ⟨v, hv, rfl⟩ := map_eq_some_iff.mp h
    have hrun := toOption_some hv
    have hin := nativeBinary_inBounds (inBounds_i64 a) hrun
    refine ⟨rfl, _, hselect .i64 (.inr (.inl rfl)) rfl, ?_⟩
    rw [evaluate_pair]
    exact native_sound (.i64 a) (.i64 b) arith .i64 (decode_i64 a) (decode_i64 b) (inBounds_i64 a)
      (inBounds_i64 b) hrun (ofInteger_i64 hin)
  · rename_i a b
    obtain ⟨selected, hsel, hty, hrun⟩ := numeric_sound w h
    refine ⟨hty, selected, ?_, hrun⟩
    rw [hselect .u64 (.inr (.inr rfl)) rfl, ← hsel]
    cases arith <;> rfl
  · cases h

/-- A binary operation that folds. -/
theorem binary_sound {c d r : Scalar} (h : c.binary op d = some r)
    (dst lhs rhs : MirValue) (hlhs : lhs.ty = c.ty)
    (hres : binaryResult op lhs.ty rhs.ty = .ok dst.ty) :
    r.ty = dst.ty ∧ ∃ selected,
      selectOperation (.binary dst op lhs rhs : Instruction P) = some selected ∧
      w.evaluate selected dst.ty [c.value, d.value] = some r.value := by
  by_cases hnumeric : ∃ operation, op = .numeric operation
  · obtain ⟨operation, rfl⟩ := hnumeric
    have hfold : c.numeric operation (some d) = some r := h
    obtain ⟨selected, hsel, hty, hrun⟩ := numeric_sound w hfold
    rw [binaryResult_numeric hres]
    exact ⟨hty, selected, hsel, hrun⟩
  · have hop : ∀ operation, op ≠ .numeric operation := fun operation heq => hnumeric ⟨operation, heq⟩
    obtain ⟨hsame, hcompareTy, harithTy⟩ := binaryResult_plain hop hres
    have hplain : c.plain op d = some r := by
      cases op with
      | numeric operation => exact absurd rfl (hop operation)
      | _ => exact h
    obtain ⟨ordering, hordering, hplain⟩ := bind_eq_some_iff.mp hplain
    split at hplain
    · rename_i holds hhld
      cases hplain
      obtain ⟨cond, hcond⟩ := comparisonOf_of_condition hhld
      rw [hsame, hlhs] at hres
      obtain ⟨selected, hsel, hrun⟩ := comparison_sound w hordering hhld hres dst rhs hlhs
      rw [hcompareTy (by rw [hcond]; rfl)]
      exact ⟨rfl, selected, hsel, hrun⟩
    · obtain ⟨arith, harith, hnat⟩ := bind_eq_some_iff.mp hplain
      rw [harithTy (by rw [harith]; rfl), hlhs]
      exact arithmetic_sound w harith hnat dst rhs hlhs

end Operations

end Scalar

end Kagari.Mir
