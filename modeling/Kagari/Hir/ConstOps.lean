import Kagari.Hir.ConstRun

/-!
# Constant operators agree with execution

An integer of a type is carried by a value of the type's representation (`carrier`). For each operator
and for casts, evaluating admitted scalars and running the emitted instructions on their values have the
same outcome, for both engines (`unary_agrees`, `binary_agrees`, `cast_agrees`).
-/

namespace Kagari.Hir

open Kagari.Runtime
open Kagari.Mir (builtinRepresentation)

/-! ## Carriers -/

section Carriers

variable {H : Type} {ty : IntegerType} {v : Int}

/-- The value of an integer constant. -/
def carrier (ty : IntegerType) (v : Int) : Value H :=
  match ty with
  | .i8 | .i16 | .i32 => .i32 (BitVec.ofInt 32 v)
  | .u64 => .u64 (BitVec.ofInt 64 v)
  | .i64 | .u8 | .u16 | .u32 => .i64 (BitVec.ofInt 64 v)

/-- `as u64`. -/
theorem toBitVec_ofInt (v : Int) : (UInt64.ofInt v).toBitVec = BitVec.ofInt 64 v := by
  apply BitVec.eq_of_toNat_eq
  rw [UInt64.toNat_toBitVec, BitVec.toNat_ofInt]
  show (v % 2 ^ 64).toNat % 2 ^ 64 = (v % (2 ^ 64 : Nat)).toNat
  omega

variable (x : Execution H)

@[simp] theorem Execution.value_integer (v : Int) (ty : IntegerType) :
    x.value (.integer v ty) = carrier ty v := by
  cases ty with
  | u64 => exact congrArg Value.u64 (toBitVec_ofInt v)
  | _ => rfl

@[simp] theorem Execution.value_bool (b : Bool) : x.value (.bool b) = .bool b := rfl

theorem toInt_ofInt_32 (h : -2 ^ 31 ≤ v ∧ v < 2 ^ 31) : (BitVec.ofInt 32 v).toInt = v := by
  rw [BitVec.toInt_ofInt]
  exact Int.bmod_eq_of_le (by omega) (by omega)

theorem toInt_ofInt_64 (h : -2 ^ 63 ≤ v ∧ v < 2 ^ 63) : (BitVec.ofInt 64 v).toInt = v := by
  rw [BitVec.toInt_ofInt]
  exact Int.bmod_eq_of_le (by omega) (by omega)

theorem toNat_ofInt_64 (h : 0 ≤ v ∧ v < 2 ^ 64) : ((BitVec.ofInt 64 v).toNat : Int) = v := by
  rw [BitVec.toNat_ofInt]
  omega

/-- What a domain in a carrier of 32 bits is bounded by. -/
theorem inBounds_i32 (hrep : builtinRepresentation ty.builtinType = .i32)
    (h : inBounds ty.layout.1 ty.layout.2 v = true) : -2 ^ 31 ≤ v ∧ v < 2 ^ 31 := by
  rw [inBounds_iff] at h
  cases ty <;> first | (cases hrep; done) | (simp [IntegerType.layout, bounds] at h ⊢; omega)

theorem inBounds_i64 (hrep : builtinRepresentation ty.builtinType = .i64)
    (h : inBounds ty.layout.1 ty.layout.2 v = true) : -2 ^ 63 ≤ v ∧ v < 2 ^ 63 := by
  rw [inBounds_iff] at h
  cases ty <;> first | (cases hrep; done) | (simp [IntegerType.layout, bounds] at h ⊢; omega)

/-- The three representations of integers. -/
theorem carrier_cases (h : inBounds ty.layout.1 ty.layout.2 v = true) :
    (builtinRepresentation ty.builtinType = .i32 ∧ (carrier ty v : Value H) = .i32 (BitVec.ofInt 32 v) ∧
      -2 ^ 31 ≤ v ∧ v < 2 ^ 31) ∨
    (builtinRepresentation ty.builtinType = .i64 ∧ (carrier ty v : Value H) = .i64 (BitVec.ofInt 64 v) ∧
      -2 ^ 63 ≤ v ∧ v < 2 ^ 63) ∨
    (ty = .u64 ∧ 0 ≤ v ∧ v < 2 ^ 64) := by
  cases ty with
  | i8 => exact .inl ⟨rfl, rfl, inBounds_i32 rfl h⟩
  | i16 => exact .inl ⟨rfl, rfl, inBounds_i32 rfl h⟩
  | i32 => exact .inl ⟨rfl, rfl, inBounds_i32 rfl h⟩
  | i64 => exact .inr (.inl ⟨rfl, rfl, inBounds_i64 rfl h⟩)
  | u8 => exact .inr (.inl ⟨rfl, rfl, inBounds_i64 rfl h⟩)
  | u16 => exact .inr (.inl ⟨rfl, rfl, inBounds_i64 rfl h⟩)
  | u32 => exact .inr (.inl ⟨rfl, rfl, inBounds_i64 rfl h⟩)
  | u64 => exact .inr (.inr ⟨rfl, (IntegerType.bounds_le .u64 h).2 rfl⟩)

theorem hasRepresentation_carrier :
    (carrier ty v : Value H).hasRepresentation (builtinRepresentation ty.builtinType) = true := by
  cases ty <;> rfl

theorem encode_carrier (h : inBounds ty.layout.1 ty.layout.2 v = true) :
    (carrier ty v : Value H).encode = some (integerPayload v) := by
  rcases carrier_cases (H := H) h with ⟨_, hv, hbnds⟩ | ⟨_, hv, _⟩ | ⟨rfl, _⟩
  · rw [hv]
    show some ((BitVec.ofInt 32 v).signExtend 64) = some (BitVec.ofInt 64 v)
    rw [BitVec.signExtend, toInt_ofInt_32 hbnds]
  · rw [hv]
    rfl
  · rfl

theorem readInteger_carrier (h : inBounds ty.layout.1 ty.layout.2 v = true) :
    readInteger ty.builtinType (carrier ty v : Value H) = .ok v := by
  unfold readInteger
  rw [hasRepresentation_carrier]
  rcases carrier_cases (H := H) h with ⟨_, hv, hbnds⟩ | ⟨_, hv, hbnds⟩ | ⟨rfl, hbnds⟩
  · rw [hv]
    simp [toInt_ofInt_32 hbnds, h]
  · rw [hv]
    simp [toInt_ofInt_64 hbnds, h]
  · simp only [carrier, toNat_ofInt_64 hbnds, IntegerType.integerLayout_builtinType, h]
    rfl

theorem decode_carrier (h : inBounds ty.layout.1 ty.layout.2 v = true) :
    decode (builtinRepresentation ty.builtinType) (integerPayload v) = some (carrier ty v : Value H) := by
  rcases carrier_cases (H := H) h with ⟨hrep, hv, _⟩ | ⟨hrep, hv, _⟩ | ⟨rfl, _⟩
  · rw [hrep, hv]
    show some (Value.i32 ((BitVec.ofInt 64 v).setWidth 32)) = some (.i32 (BitVec.ofInt 32 v))
    refine congrArg (fun bits => some (Value.i32 bits)) (BitVec.eq_of_toNat_eq ?_)
    rw [BitVec.toNat_setWidth, BitVec.toNat_ofInt, BitVec.toNat_ofInt]
    omega
  · rw [hrep, hv]
    rfl
  · rfl

end Carriers

/-! ## Integer operations -/

variable {arithmetic : IntegerBinaryOp} {right : IntegerType} {condition : Comparison}
  {op : SourceOp}

section Integers

variable (floats : Floats) {ty : IntegerType} {op : IntegerOp} {l r : Int}

/-- The range check after an operation never fails. -/
theorem integerValue_eq (hl : inBounds ty.layout.1 ty.layout.2 l = true) :
    integerValue op l r ty =
      (integerOperation op l r ty.layout.1 ty.layout.2).map (ScalarValue.integer · ty) := by
  unfold integerValue
  cases h : integerOperation op l r ty.layout.1 ty.layout.2 with
  | error e => rfl
  | ok v =>
    show ScalarValue.ofInteger v ty = _
    unfold ScalarValue.ofInteger
    rw [if_pos (integerOperation_inBounds hl h)]
    rfl

/-- An operation of two operands, on payloads. The count of a shift has a type of its own. -/
theorem evaluate_numeric (op : IntegerOp) (hop : op ≠ .bitNot)
    (hrt : op = .shl ∨ op = .shr ∨ right = ty) (hl : inBounds ty.layout.1 ty.layout.2 l = true)
    (hr : inBounds right.layout.1 right.layout.2 r = true) :
    ∃ selected, ScalarOperation.integerOf op ty.builtinType (some right.builtinType) = some selected ∧
      selected.evaluate floats (integerPayload l) (integerPayload r) =
        (integerOperation op l r ty.layout.1 ty.layout.2).map integerPayload := by
  have hleft := decodeInteger_integerPayload hl
  have hcnt := decodeInteger_integerPayload hr
  unfold ScalarOperation.integerOf
  rw [IntegerType.fromBuiltin_builtinType]
  have hshf : ∀ shifted, (shifted = .shl ∨ shifted = .shr) → ∀ kind, ShiftKind.new ty shifted = some kind →
      (ScalarOperation.shift kind right).evaluate floats (integerPayload l) (integerPayload r) =
        (integerOperation shifted l r ty.layout.1 ty.layout.2).map integerPayload := by
    rintro shifted hshifted kind hkind
    have hpts : kind.parts = (ty, shifted) := by
      rcases hshifted with rfl | rfl <;> cases hkind <;> rfl
    simp only [ScalarOperation.evaluate, evaluateShift, hpts, hleft, hcnt]
    rfl
  have hplain : right = ty → (ScalarOperation.integer ty op).evaluate floats (integerPayload l) (integerPayload r) =
      (integerOperation op l r ty.layout.1 ty.layout.2).map integerPayload := by
    rintro rfl
    simp only [ScalarOperation.evaluate, evaluateInteger, hleft, hcnt]
    rfl
  cases op with
  | bitNot => exact absurd rfl hop
  | shl =>
    refine ⟨.shift ⟨ty, false⟩ right, ?_, hshf .shl (.inl rfl) _ rfl⟩
    simp [ShiftKind.new]
  | shr =>
    refine ⟨.shift ⟨ty, true⟩ right, ?_, hshf .shr (.inr rfl) _ rfl⟩
    simp [ShiftKind.new]
  | _ => exact ⟨_, rfl, hplain (by simpa using hrt)⟩

/-- A complement reads only its first operand. -/
theorem evaluate_bitNot (right : BitVec 64) (hl : inBounds ty.layout.1 ty.layout.2 l = true) :
    ScalarOperation.integerOf .bitNot ty.builtinType none = some (.bitNot ty) ∧
      (ScalarOperation.bitNot ty).evaluate floats (integerPayload l) right =
        (integerOperation .bitNot l 0 ty.layout.1 ty.layout.2).map integerPayload := by
  refine ⟨by simp [ScalarOperation.integerOf], ?_⟩
  simp only [ScalarOperation.evaluate, evaluateBitNot, decodeInteger_integerPayload hl]
  rfl

/-- Checked arithmetic of one width. -/
theorem integerOperation_checked
    (hl : inBounds ty.layout.1 ty.layout.2 l = true) (hr : inBounds ty.layout.1 ty.layout.2 r = true) :
    integerOperation (checkedOp arithmetic) l r ty.layout.1 ty.layout.2 =
      (nativeBinary ty.layout.1 ty.layout.2 arithmetic l r).mapError ArithmeticError.message := by
  have hop : (checkedOp arithmetic).arithmetic = some arithmetic := by cases arithmetic <;> rfl
  have hshf : ¬(checkedOp arithmetic = .shl ∨ checkedOp arithmetic = .shr) := by
    cases arithmetic <;> simp [checkedOp]
  unfold integerOperation
  rw [if_neg (not_not.mpr ty.layout_mem), if_neg (fun h => hshf h.1), hop]
  exact congrArg (Except.mapError ArithmeticError.message) (fixedBinary_eq ty.layout_mem hl hr)

end Integers

/-! ## Instructions -/

/-- What running an operator does that evaluates to this. -/
def Execution.outcome {H : Type} (x : Execution H) : Except String ScalarValue → Except VmError (Value H)
  | .ok value => .ok (x.value value)
  | .error reason => .error (.runtime (trap reason))

section Instructions

variable {H : Type} (x : Execution H) {ty : IntegerType} {op : IntegerOp} {l r : Int}

/-- The result of an integer operation, decoded. -/
theorem decodeResult_integer (hl : inBounds ty.layout.1 ty.layout.2 l = true) (fail : RuntimeError) :
    some ((decodeResult (builtinRepresentation ty.builtinType)
      ((integerOperation op l r ty.layout.1 ty.layout.2).map integerPayload) fail).mapError .runtime) =
      some (x.outcome (integerValue op l r ty)) := by
  rw [integerValue_eq hl]
  cases h : integerOperation op l r ty.layout.1 ty.layout.2 with
  | error e => rfl
  | ok v =>
    have hv := decode_carrier (H := H) (integerOperation_inBounds hl h)
    simp [Except.map, Except.mapError, Execution.outcome, decodeResult, hv]

theorem storeResult_integer (hl : inBounds ty.layout.1 ty.layout.2 l = true) :
    storeResult (builtinRepresentation ty.builtinType)
      ((integerOperation op l r ty.layout.1 ty.layout.2).map integerPayload) =
      some (x.outcome (integerValue op l r ty)) := by
  rw [integerValue_eq hl]
  cases h : integerOperation op l r ty.layout.1 ty.layout.2 with
  | error e => rfl
  | ok v =>
    have hv := decode_carrier (H := H) (integerOperation_inBounds hl h)
    simp [Except.map, Execution.outcome, storeResult, hv]

theorem slotType_isSome (ty : IntegerType) (l : Int) : ∃ input, slotType (carrier ty l : Value H) = some input := by
  cases ty <;> exact ⟨_, rfl⟩

theorem contract_isSome (hop : op ≠ .bitNot)
    (hrt : op = .shl ∨ op = .shr ∨ right = ty) :
    (NumericOperation.contract ⟨op, ty.builtinType, some right.builtinType⟩).isNone = false := by
  unfold NumericOperation.contract
  have hsame : ¬(¬(op = .shl ∨ op = .shr) ∧ right.builtinType ≠ ty.builtinType) := by
    rintro ⟨hshf, hne⟩
    rcases hrt with h | h | rfl
    · exact hshf (.inl h)
    · exact hshf (.inr h)
    · exact hne rfl
  simp only [IntegerType.integerLayout_builtinType, Option.isNone_some, Bool.false_eq_true, if_false,
    if_neg hop, if_neg hsame]

/-- An integer instruction with two operands. -/
theorem execute_numeric (hop : op ≠ .bitNot)
    (hrt : op = .shl ∨ op = .shr ∨ right = ty) (hl : inBounds ty.layout.1 ty.layout.2 l = true)
    (hr : inBounds right.layout.1 right.layout.2 r = true) :
    x.execute (.numeric ⟨op, ty.builtinType, some right.builtinType⟩) [carrier ty l, carrier right r] =
      some (x.outcome (integerValue op l r ty)) := by
  obtain ⟨selected, hsel, heval⟩ := evaluate_numeric x.platform.floats op hop hrt hl hr
  unfold Execution.execute Engine.execute
  cases x.engine with
  | direct gc =>
    rw [← decodeResult_integer x hl (trap "integer result"), ← heval]
    simp [dispatch, fixedInteger, contract_isSome hop hrt, readRight, readInteger_carrier hl,
      readInteger_carrier hr, hsel, bind, Except.bind]
  | prepared =>
    rw [← storeResult_integer x hl, ← heval]
    obtain ⟨input, hinp⟩ := slotType_isSome (H := H) ty l
    simp [runPrepared, hinp, prepare, hsel, encode_carrier hl, encode_carrier hr]

/-- A complement. -/
theorem execute_bitNot (hl : inBounds ty.layout.1 ty.layout.2 l = true) :
    x.execute (.numeric ⟨.bitNot, ty.builtinType, none⟩) [carrier ty l] =
      some (x.outcome (integerValue .bitNot l 0 ty)) := by
  obtain ⟨hsel, _⟩ := evaluate_bitNot x.platform.floats 0 hl
  unfold Execution.execute Engine.execute
  cases x.engine with
  | direct gc =>
    have hctr : (NumericOperation.contract ⟨.bitNot, ty.builtinType, none⟩).isNone = false := by
      cases ty <;> rfl
    have heval := (evaluate_bitNot x.platform.floats (integerPayload 0) hl).2
    rw [← decodeResult_integer x hl (trap "integer result"), ← heval]
    simp [dispatch, fixedInteger, hctr, readRight, readInteger_carrier hl, hsel, bind, Except.bind]
  | prepared =>
    have heval := (evaluate_bitNot x.platform.floats (integerPayload l) hl).2
    rw [← storeResult_integer x hl, ← heval]
    obtain ⟨input, hinp⟩ := slotType_isSome (H := H) ty l
    simp [runPrepared, hinp, prepare, hsel, encode_carrier hl]

/-- The arithmetic of a native width, on the integers of its carriers. -/
theorem integerKernel_agrees (arithmetic : IntegerBinaryOp)
    {kernel : IntegerBinaryOp → Int → Int → Except ArithmeticError Int} {value : Int → Value H}
      (hkern : kernel = nativeBinary ty.layout.1 ty.layout.2)
    (hval : value = carrier ty) (hl : inBounds ty.layout.1 ty.layout.2 l = true)
    (hr : inBounds ty.layout.1 ty.layout.2 r = true) :
    some ((integerKernel (arithmeticOp arithmetic) kernel l r value).mapError .runtime) =
      some (x.outcome (integerValue (checkedOp arithmetic) l r ty)) := by
  subst hkern hval
  have hop : BinaryOp.integer (arithmeticOp arithmetic) = some arithmetic := by cases arithmetic <;> rfl
  rw [integerValue_eq hl, integerOperation_checked hl hr]
  unfold integerKernel
  rw [hop]
  dsimp only
  cases nativeBinary ty.layout.1 ty.layout.2 arithmetic l r with
  | error e => rfl
  | ok v => simp [Except.map, Except.mapError, Execution.outcome]

/-- The types whose representation holds exactly their integers. -/
theorem execute_arithmetic (hwide : narrowInteger ty.builtinType = false)
    (hl : inBounds ty.layout.1 ty.layout.2 l = true) (hr : inBounds ty.layout.1 ty.layout.2 r = true) :
    x.execute (.binary (arithmeticOp arithmetic)) [carrier ty l, carrier ty r] =
      some (x.outcome (integerValue (checkedOp arithmetic) l r ty)) := by
  have hty : ty = .i32 ∨ ty = .i64 ∨ ty = .u64 := by cases ty <;> simp_all [narrowInteger, IntegerType.builtinType]
  unfold Execution.execute Engine.execute
  cases x.engine with
  | direct gc =>
    have happly : ∀ a b : Value H, dispatch x.platform gc (.binary (arithmeticOp arithmetic)) [a, b] =
        some ((Runtime.binary x.platform.floats (arithmeticOp arithmetic) a b).mapError .runtime) := by
      intro a b
      cases arithmetic <;> rfl
    dsimp only
    rw [happly]
    rcases hty with rfl | rfl | rfl
    · rw [← integerKernel_agrees x arithmetic rfl rfl hl hr]
      have hleft := toInt_ofInt_32 (inBounds_i32 rfl hl)
      have hrt := toInt_ofInt_32 (inBounds_i32 rfl hr)
      cases arithmetic <;> simp only [Runtime.binary, arithmeticOp, carrier, hleft, hrt] <;> rfl
    · rw [← integerKernel_agrees x arithmetic rfl rfl hl hr]
      have hleft := toInt_ofInt_64 (inBounds_i64 rfl hl)
      have hrt := toInt_ofInt_64 (inBounds_i64 rfl hr)
      cases arithmetic <;> simp only [Runtime.binary, arithmeticOp, carrier, hleft, hrt] <;> rfl
    · rw [← integerKernel_agrees x arithmetic rfl rfl hl hr]
      have hleft := toNat_ofInt_64 ((IntegerType.bounds_le .u64 hl).2 rfl)
      have hrt := toNat_ofInt_64 ((IntegerType.bounds_le .u64 hr).2 rfl)
      cases arithmetic <;> simp only [Runtime.binary, arithmeticOp, carrier, hleft, hrt] <;> rfl
  | prepared =>
    obtain ⟨selected, hsel, heval⟩ := evaluate_numeric x.platform.floats (checkedOp arithmetic)
      (by cases arithmetic <;> simp [checkedOp]) (.inr (.inr rfl)) hl hr
    have hprep : ∃ input, slotType (carrier ty l : Value H) = some input ∧
        prepare x.platform (.binary (arithmeticOp arithmetic)) input =
          (ScalarOperation.integerOf (checkedOp arithmetic) ty.builtinType (some ty.builtinType)).bind fun selected =>
            some (selected.evaluate x.platform.floats, builtinRepresentation ty.builtinType) := by
      rcases hty with rfl | rfl | rfl <;> exact ⟨_, rfl, by cases arithmetic <;> rfl⟩
    obtain ⟨input, hinp, hprep⟩ := hprep
    dsimp only
    rw [← storeResult_integer x hl, ← heval]
    simp [runPrepared, hinp, hprep, hsel, encode_carrier hl, encode_carrier hr]

theorem zero_inBounds (ty : IntegerType) : inBounds ty.layout.1 ty.layout.2 0 = true := by
  cases ty <;> rfl

/-- The negation of a signed type whose representation holds exactly its integers. -/
theorem execute_neg (hty : ty = .i32 ∨ ty = .i64) (hl : inBounds ty.layout.1 ty.layout.2 l = true) :
    x.execute (.unary .neg) [carrier ty l] = some (x.outcome (integerValue .checkedSub 0 l ty)) := by
  have hzero := zero_inBounds ty
  unfold Execution.execute Engine.execute
  cases x.engine with
  | direct gc =>
    have hkern : dispatch x.platform gc (.unary .neg) [carrier ty l] =
        some ((integerKernel .sub (nativeBinary ty.layout.1 ty.layout.2) 0 l (carrier ty)).mapError .runtime) := by
      rcases hty with rfl | rfl
      · have hrt := toInt_ofInt_32 (inBounds_i32 rfl hl)
        simp [dispatch, Runtime.unary, carrier, hrt, integerKernel, BinaryOp.integer, nativeBinary, i32Neg,
          IntegerType.layout]
        rfl
      · have hrt := toInt_ofInt_64 (inBounds_i64 rfl hl)
        simp [dispatch, Runtime.unary, carrier, hrt, integerKernel, BinaryOp.integer, nativeBinary, i64Neg,
          IntegerType.layout]
        rfl
    exact hkern.trans (integerKernel_agrees x .sub rfl rfl hzero hl)
  | prepared =>
    have hprep : ∃ input, slotType (carrier ty l : Value H) = some input ∧
        prepare x.platform (.unary .neg) input =
          some (fun lhs _ => evaluateInteger .checkedSub ty (integerPayload 0) lhs,
            builtinRepresentation ty.builtinType) := by
      rcases hty with rfl | rfl <;> exact ⟨_, rfl, rfl⟩
    obtain ⟨input, hinp, hprep⟩ := hprep
    have heval : evaluateInteger .checkedSub ty (integerPayload 0) (integerPayload l) =
        (integerOperation .checkedSub 0 l ty.layout.1 ty.layout.2).map integerPayload := by
      unfold evaluateInteger
      rw [decodeInteger_integerPayload hzero, decodeInteger_integerPayload hl]
      rfl
    dsimp only
    rw [← storeResult_integer x hzero, ← heval]
    simp [runPrepared, hinp, hprep, encode_carrier hl]

theorem execute_not (b : Bool) : x.execute (.unary .not) [.bool b] = some (.ok (.bool !b)) := by
  unfold Execution.execute Engine.execute
  cases x.engine with
  | direct gc => rfl
  | prepared => cases b <;> rfl

/-- Comparing two booleans. -/
theorem execute_eq_bool (a b : Bool) :
    x.execute (.binary .eq) [.bool a, .bool b] = some (.ok (.bool (a == b))) := by
  unfold Execution.execute Engine.execute
  cases x.engine with
  | direct gc => rfl
  | prepared => cases a <;> cases b <;> rfl

/-- The domains that integers are compared in. -/
theorem comparisonDomain_of (condition : Comparison) (l r : Int)
    (hl : inBounds ty.layout.1 ty.layout.2 l = true) (hr : inBounds ty.layout.1 ty.layout.2 r = true) :
    ∃ input domain, slotType (carrier ty l : Value H) = some input ∧
      ComparisonDomain.of input condition = some domain ∧
      domain.evaluate x.platform.floats condition (integerPayload l) (integerPayload r) =
        .ok (boolPayload (condition.test l r)) := by
  rcases carrier_cases (H := H) hl with ⟨hrep, hv, hbnds⟩ | ⟨hrep, hv, hbnds⟩ | ⟨rfl, _⟩
  · have hleft : decodeInteger (integerPayload l) .i32 = .ok l :=
      decodeInteger_integerPayload (by simp [inBounds, bounds, IntegerType.layout]; omega)
    have hbnds := inBounds_i32 hrep hr
    have hrt : decodeInteger (integerPayload r) .i32 = .ok r :=
      decodeInteger_integerPayload (by simp [inBounds, bounds, IntegerType.layout]; omega)
    refine ⟨.i32, .i32, by rw [hv]; rfl, rfl, ?_⟩
    simp only [ComparisonDomain.evaluate, hleft, hrt]
    rfl
  · have hleft : decodeInteger (integerPayload l) .i64 = .ok l :=
      decodeInteger_integerPayload (by simp [inBounds, bounds, IntegerType.layout]; omega)
    have hbnds := inBounds_i64 hrep hr
    have hrt : decodeInteger (integerPayload r) .i64 = .ok r :=
      decodeInteger_integerPayload (by simp [inBounds, bounds, IntegerType.layout]; omega)
    refine ⟨.i64, .i64, by rw [hv]; rfl, rfl, ?_⟩
    simp only [ComparisonDomain.evaluate, hleft, hrt]
    rfl
  · refine ⟨.u64, .u64, rfl, rfl, ?_⟩
    simp only [ComparisonDomain.evaluate, decodeInteger_integerPayload hl, decodeInteger_integerPayload hr]
    rfl

/-- Carriers of one type are equal where their integers are. -/
theorem carrier_injective (hl : inBounds ty.layout.1 ty.layout.2 l = true)
    (hr : inBounds ty.layout.1 ty.layout.2 r = true) (h : (carrier ty l : Value H) = carrier ty r) : l = r := by
  have hleft := readInteger_carrier (H := H) hl
  rw [h, readInteger_carrier hr] at hleft
  exact (Except.ok.inj hleft).symm

theorem compareWith_carrier (condition : Comparison) (hl : inBounds ty.layout.1 ty.layout.2 l = true)
    (hr : inBounds ty.layout.1 ty.layout.2 r = true) :
    compareWith x.platform.floats condition (carrier ty l : Value H) (carrier ty r) =
      .ok (.bool (condition.test l r)) := by
  rcases carrier_cases (H := H) hl with ⟨hrep, hv, hleft⟩ | ⟨hrep, hv, hleft⟩ | ⟨rfl, hleft⟩
  · have hw : (carrier ty r : Value H) = .i32 (BitVec.ofInt 32 r) := by cases ty <;> first | rfl | cases hrep
    simp only [hv, hw, compareWith, toInt_ofInt_32 hleft, toInt_ofInt_32 (inBounds_i32 hrep hr)]
  · have hw : (carrier ty r : Value H) = .i64 (BitVec.ofInt 64 r) := by cases ty <;> first | rfl | cases hrep
    simp only [hv, hw, compareWith, toInt_ofInt_64 hleft, toInt_ofInt_64 (inBounds_i64 hrep hr)]
  · have hrt := (IntegerType.bounds_le .u64 hr).2 rfl
    have hl' := toNat_ofInt_64 hleft
    have hr' := toNat_ofInt_64 hrt
    simp only [carrier, compareWith]
    generalize (BitVec.ofInt 64 l).toNat = a at hl' ⊢
    generalize (BitVec.ofInt 64 r).toNat = b at hr' ⊢
    subst hl' hr'
    cases condition <;> simp [Comparison.test]

/-- Comparing two integers of a type; inequality is not emitted. -/
theorem execute_compare (hne : condition ≠ .notEq)
    (hl : inBounds ty.layout.1 ty.layout.2 l = true) (hr : inBounds ty.layout.1 ty.layout.2 r = true) :
    x.execute (.binary (comparisonOp condition)) [carrier ty l, carrier ty r] =
      some (.ok (.bool (condition.test l r))) := by
  unfold Execution.execute Engine.execute
  cases x.engine with
  | direct gc =>
    have hcmp := fun c => compareWith_carrier x c hl hr
    cases condition with
    | eq =>
      obtain ⟨equal, heql, hiff⟩ : ∃ equal, scriptEqual gc 1 (carrier ty l) (carrier ty r) = some (.ok equal) ∧
          (equal = true ↔ (carrier ty l : Value H) = carrier ty r) := by
        cases ty <;> exact ⟨_, rfl, by simp [carrier]⟩
      have htest : equal = Comparison.eq.test l r := by
        rw [Bool.eq_iff_iff, hiff]
        simp only [Comparison.test, decide_eq_true_eq]
        exact ⟨carrier_injective hl hr, fun h => by rw [h]⟩
      simp [dispatch, comparisonOp, applyBinary, heql, htest, Except.map, Except.mapError]
    | notEq => exact absurd rfl hne
    | lt => simp [dispatch, comparisonOp, applyBinary, scalarBinary, BinaryOp.condition, hcmp, Except.mapError]
    | le => simp [dispatch, comparisonOp, applyBinary, scalarBinary, BinaryOp.condition, hcmp, Except.mapError]
    | gt => simp [dispatch, comparisonOp, applyBinary, scalarBinary, BinaryOp.condition, hcmp, Except.mapError]
    | ge => simp [dispatch, comparisonOp, applyBinary, scalarBinary, BinaryOp.condition, hcmp, Except.mapError]
  | prepared =>
    obtain ⟨input, domain, hinp, hdom, heval⟩ := comparisonDomain_of x condition l r hl hr
    have hprep : prepare x.platform (.binary (comparisonOp condition)) input =
        some (domain.evaluate x.platform.floats condition, .bool) := by
      cases condition <;> simp [prepare, comparisonOp, Mir.BinaryOp.scalar, ScalarOperation.binary,
        ScalarBinaryOp.condition, hdom] <;> rfl
    have hsto : ∀ b : Bool, storeResult (H := H) .bool (.ok (boolPayload b)) = some (.ok (.bool b)) := by
      intro b
      cases b <;> rfl
    simp [runPrepared, hinp, hprep, encode_carrier hl, encode_carrier hr, heval, hsto]

/-- A conversion that an engine performs on the payload of its operand. -/
theorem execute_convert {source target : BuiltinType} {value result : Value H} (payload : BitVec 64) {bits : BitVec 64}
    (selected : ConversionOperation) (hcast : source.canCastTo target = true)
    (hrep : value.hasRepresentation (builtinRepresentation source) = true) (hslot : (slotType value).isSome)
    (henc : value.encode = some payload)
    (hsel : ConversionOperation.conversion source target = some selected)
    (hrun : ∀ floats, selected.evaluate floats payload = .ok bits)
    (hdec : decode (builtinRepresentation target) bits = some result) :
    x.execute (.convert ⟨source, target⟩) [value] = some (.ok result) := by
  unfold Execution.execute Engine.execute
  cases x.engine with
  | direct gc =>
    simp [dispatch, convert, NumericConversion.contract, hcast, hrep, hsel, henc, hrun, decodeResult, hdec,
      Except.mapError]
  | prepared =>
    obtain ⟨input, hinp⟩ := Option.isSome_iff_exists.mp hslot
    simp [runPrepared, hinp, prepare, hsel, henc, hrun, storeResult, hdec]

end Instructions

/-! ## Operators -/

variable {bits : IntegerOp} {ty : IntegerType}

section Operators

variable {H : Type} (x : Execution H)

variable {v : ScalarValue}

theorem ScalarValue.Valid.cases (h : v.Valid) :
    (∃ b, v = .bool b) ∨ ∃ n ty, v = .integer n ty ∧ inBounds ty.layout.1 ty.layout.2 n = true := by
  cases v with
  | bool b => exact .inl ⟨b, rfl⟩
  | integer n ty => exact .inr ⟨n, ty, rfl, h⟩
  | _ => exact h.elim

/-- The integer types among the builtin ones. -/
theorem integer_of_layout {ty : BuiltinType} (h : ty.integerLayout.isSome) :
    ∃ domain : IntegerType, ty = domain.builtinType := by
  cases ty with
  | i8 => exact ⟨.i8, rfl⟩
  | i16 => exact ⟨.i16, rfl⟩
  | i32 => exact ⟨.i32, rfl⟩
  | i64 => exact ⟨.i64, rfl⟩
  | u8 => exact ⟨.u8, rfl⟩
  | u16 => exact ⟨.u16, rfl⟩
  | u32 => exact ⟨.u32, rfl⟩
  | u64 => exact ⟨.u64, rfl⟩
  | _ => cases h

theorem cast_agrees (floats : FloatConversions) {target : BuiltinType} (hv : v.Valid)
    (htgt : BoolOrInteger target) (hcast : v.ty.canCastTo target) :
    ∃ w, v.castNumeric floats target = some w ∧ w.Valid ∧ w.ty = target ∧
      x.execute (.convert ⟨v.ty, target⟩) [x.value v] = some (.ok (x.value w)) := by
  obtain ⟨target, rfl⟩ : ∃ domain : IntegerType, target = domain.builtinType := by
    rcases htgt with rfl | hint
    · exfalso
      revert hcast
      cases v.ty <;> decide
    · exact integer_of_layout hint
  have hin : ∀ n, inBounds target.layout.1 target.layout.2 (wrap n target.layout.1 target.layout.2) = true :=
    wrap_inBounds target.layout_pos
  rcases hv.cases with ⟨b, rfl⟩ | ⟨n, ty, rfl, hn⟩
  · refine ⟨.integer (wrap (if b then 1 else 0) target.layout.1 target.layout.2) target, ?_, hin _, rfl, ?_⟩
    · simp [ScalarValue.castNumeric, hcast, ScalarValue.number, Number.cast, ScalarValue.ofInteger, hin,
        Except.toOption]
    · rw [Execution.value_integer]
      refine execute_convert x (boolPayload b) (.boolToInteger target) hcast rfl rfl ?_ ?_
        (fun floats => convertPayload_bool b) (decode_carrier (hin _))
      · cases b <;> rfl
      · cases target <;> rfl
  · refine ⟨.integer (wrap n target.layout.1 target.layout.2) target, ?_, hin _, rfl, ?_⟩
    · simp [ScalarValue.castNumeric, hcast, ScalarValue.number, Number.cast, ScalarValue.ofInteger, hin,
        Except.toOption]
    · rw [Execution.value_integer, Execution.value_integer]
      refine execute_convert x (integerPayload n) (.integerConvert ty target) hcast hasRepresentation_carrier ?_
        (encode_carrier hn) ?_ (fun floats => convertPayload_integer hn) (decode_carrier (hin _))
      · cases ty <;> rfl
      · simp only [ScalarValue.ty, ConversionOperation.conversion, IntegerType.fromBuiltin_builtinType]

/-- The result of an integer operation is in the range of its type. -/
theorem integerValue_valid {op : IntegerOp} {l r : Int} {w : ScalarValue}
    (h : integerValue op l r ty = .ok w) : w.Valid ∧ w.ty = ty.builtinType := by
  unfold integerValue at h
  cases hrun : integerOperation op l r ty.layout.1 ty.layout.2 with
  | error e => rw [hrun] at h; cases h
  | ok v =>
    rw [hrun] at h
    change ScalarValue.ofInteger v ty = .ok w at h
    unfold ScalarValue.ofInteger at h
    split at h
    · rename_i hin
      cases h
      exact ⟨hin, rfl⟩
    · cases h

theorem unary_agrees {op : PrefixOp} (hv : v.Valid) (hop : supportsUnary op v.ty) :
    ∃ result, unary op v = some result ∧ runUnary x.execute op v.ty (x.value v) = some (x.outcome result) ∧
      ∀ w, result = .ok w → w.Valid ∧ w.ty = v.ty := by
  rcases hv.cases with ⟨b, rfl⟩ | ⟨n, ty, rfl, hn⟩
  · cases op with
    | neg => cases hop
    | not =>
      refine ⟨.ok (.bool !b), rfl, execute_not x b, ?_⟩
      rintro w h
      cases h
      exact ⟨trivial, rfl⟩
  · rw [Execution.value_integer]
    cases op with
    | not =>
      refine ⟨_, rfl, ?_, fun w h => integerValue_valid h⟩
      unfold runUnary
      simp only [ScalarValue.ty, IntegerType.integerLayout_builtinType, Option.isSome_some, if_true]
      exact execute_bitNot x hn
    | neg =>
      refine ⟨_, rfl, ?_, fun w h => integerValue_valid h⟩
      unfold runUnary
      by_cases hsmall : ty.builtinType = .i8 ∨ ty.builtinType = .i16
      · rw [ScalarValue.ty, if_pos hsmall]
        have hzero : (.i32 0 : Value H) = carrier ty 0 := by
          cases ty <;> simp [IntegerType.builtinType] at hsmall <;> rfl
        rw [hzero]
        exact execute_numeric x (by simp) (.inr (.inr rfl)) (zero_inBounds ty) hn
      · rw [ScalarValue.ty, if_neg hsmall]
        refine execute_neg x ?_ hn
        cases ty <;> simp [IntegerType.builtinType, supportsUnary, supportsUnaryNegation, ScalarValue.ty,
          BuiltinType.integerLayout, IntegerType.fromBuiltin, IntegerType.layout, FloatType.fromBuiltin] at hsmall hop ⊢

/-- What the rules say of the operands of the bit operators. -/
theorem supports_bits {left right : BuiltinType} (hbits : op.bits = some bits)
    (h : supportsConstBinary op left right) : left.integerLayout.isSome ∧ right.integerLayout.isSome ∧
      bits ≠ .bitNot ∧ (bits = .shl ∨ bits = .shr ∨ right = left) := by
  cases op <;> cases hbits <;> simp [supportsConstBinary] at h ⊢ <;> grind

theorem supports_arithmetic {left right : BuiltinType}
    (hop : op.arithmetic = some arithmetic) (h : supportsConstBinary op left right) :
    op.bits = none ∧ left = right ∧ left.numberType.isSome := by
  cases op <;> cases hop <;> simp [supportsConstBinary, supportsArithmetic] at h <;> exact ⟨rfl, h⟩

theorem supports_condition {left right : BuiltinType}
    (hop : op.condition = some condition) (h : supportsConstBinary op left right) :
    op.bits = none ∧ op.arithmetic = none ∧ left = right ∧ (left = .bool → condition = .eq ∨ condition = .notEq) := by
  cases op <;> cases hop <;>
    simp [supportsConstBinary, supportsOrdering, supportsArithmetic, SourceOp.bits, SourceOp.arithmetic] at h ⊢ <;>
    first | exact h | skip
  all_goals
    rcases h with ⟨rfl, h⟩ | ⟨rfl, rfl⟩
    · refine ⟨rfl, ?_⟩
      rintro rfl
      cases h
    · exact ⟨rfl, by simp⟩

/-- A scalar of an integer type. -/
theorem ScalarValue.Valid.integer (hv : v.Valid) (hty : v.ty.integerLayout.isSome) :
    ∃ n ty, v = .integer n ty ∧ inBounds ty.layout.1 ty.layout.2 n = true := by
  rcases hv.cases with ⟨b, rfl⟩ | h
  · cases hty
  · exact h

theorem ScalarValue.Valid.number (hv : v.Valid) (hty : v.ty.numberType.isSome) :
    v.ty.integerLayout.isSome := by
  rcases hv.cases with ⟨b, rfl⟩ | ⟨n, ty, rfl, _⟩
  · cases hty
  · simp [ScalarValue.ty]

theorem builtinType_injective {a b : IntegerType} (h : a.builtinType = b.builtinType) : a = b := by
  have := congrArg IntegerType.fromBuiltin h
  simpa using this

section Binary

variable (floats : Floats) {op : SourceOp} {l r : ScalarValue}

theorem bits_agree (hbits : op.bits = some bits) (hl : l.Valid) (hr : r.Valid)
    (hop : supportsConstBinary op l.ty r.ty) :
    ∃ result, binary floats op l r = some result ∧
      runBinary x.execute op l.ty r.ty (x.value l) (x.value r) = some (x.outcome result) ∧
      ∀ w, result = .ok w → w.Valid ∧ w.ty = l.ty := by
  obtain ⟨hleft, hrt, hne, hshf⟩ := supports_bits hbits hop
  obtain ⟨n, ty, rfl, hn⟩ := hl.integer hleft
  obtain ⟨k, right, rfl, hk⟩ := hr.integer hrt
  refine ⟨integerValue bits n k ty, by simp [binary, hbits, scalarBits], ?_, fun w h => integerValue_valid h⟩
  have hsame : bits = .shl ∨ bits = .shr ∨ right = ty := hshf.imp id (Or.imp id builtinType_injective)
  simp only [runBinary, hbits, Execution.value_integer]
  exact execute_numeric x hne hsame hn hk

theorem arithmetic_agrees (harith : op.arithmetic = some arithmetic)
    (hl : l.Valid) (hr : r.Valid) (hop : supportsConstBinary op l.ty r.ty) :
    ∃ result, binary floats op l r = some result ∧
      runBinary x.execute op l.ty r.ty (x.value l) (x.value r) = some (x.outcome result) ∧
      ∀ w, result = .ok w → w.Valid ∧ w.ty = l.ty := by
  obtain ⟨hbits, hsame, hnum⟩ := supports_arithmetic harith hop
  have hleft := hl.number hnum
  obtain ⟨n, ty, rfl, hn⟩ := hl.integer hleft
  obtain ⟨k, right, rfl, hk⟩ := hr.integer (hsame ▸ hleft)
  obtain rfl := builtinType_injective hsame
  refine ⟨integerValue (checkedOp arithmetic) n k ty, by simp [binary, hbits, harith, Hir.arithmetic], ?_,
    fun w h => integerValue_valid h⟩
  simp only [runBinary, hbits, harith, Execution.value_integer, ScalarValue.ty]
  by_cases hnarr : narrowInteger ty.builtinType = true
  · rw [if_pos hnarr]
    exact execute_numeric x (by cases arithmetic <;> simp [checkedOp]) (.inr (.inr rfl)) hn hk
  · rw [if_neg hnarr]
    exact execute_arithmetic x (Bool.eq_false_iff.mpr hnarr) hn hk

/-- A comparison of two integers of a type, inequality as the negation of equality. -/
theorem compare_runs {n k : Int} (hbits : op.bits = none)
    (harith : op.arithmetic = none) (hcond : op.condition = some condition)
    (hn : inBounds ty.layout.1 ty.layout.2 n = true) (hk : inBounds ty.layout.1 ty.layout.2 k = true) :
    runBinary x.execute op ty.builtinType ty.builtinType (carrier ty n) (carrier ty k) =
      some (.ok (.bool (condition.test n k))) := by
  have hcmp := fun (c : Comparison) (hc : c ≠ .notEq) => execute_compare x hc hn hk
  simp only [runBinary, hbits, harith, hcond]
  cases condition with
  | notEq =>
    simp only [show BinaryOp.eq = comparisonOp .eq from rfl, hcmp .eq (by simp), andThen, execute_not]
    simp [Comparison.test]
  | _ => exact hcmp _ (by simp)

theorem condition_agrees (hcond : op.condition = some condition)
    (hl : l.Valid) (hr : r.Valid) (hop : supportsConstBinary op l.ty r.ty) :
    ∃ result, binary floats op l r = some result ∧
      runBinary x.execute op l.ty r.ty (x.value l) (x.value r) = some (x.outcome result) ∧
      ∀ w, result = .ok w → w.Valid ∧ w.ty = .bool := by
  obtain ⟨hbits, harith, hsame, heq⟩ := supports_condition hcond hop
  rcases hl.cases with ⟨a, rfl⟩ | ⟨n, ty, rfl, hn⟩
  · obtain ⟨b, rfl⟩ : ∃ b, r = .bool b := by
      rcases hr.cases with h | ⟨k, right, rfl, _⟩
      · exact h
      · cases right <;> cases hsame
    rcases heq rfl with rfl | rfl
    · refine ⟨.ok (.bool (a == b)), ?_, ?_, ?_⟩
      · cases op <;> cases hcond; rfl
      · simp only [runBinary, hbits, harith, hcond, Execution.value_bool]
        exact execute_eq_bool x a b
      · rintro w h
        cases h
        exact ⟨trivial, rfl⟩
    · refine ⟨.ok (.bool (a != b)), ?_, ?_, ?_⟩
      · cases op <;> cases hcond; rfl
      · simp only [runBinary, hbits, harith, hcond, Execution.value_bool, execute_eq_bool, andThen,
          execute_not]
        rfl
      · rintro w h
        cases h
        exact ⟨trivial, rfl⟩
  · obtain ⟨k, right, rfl, hk⟩ := hr.integer (hsame ▸ by simp [ScalarValue.ty])
    obtain rfl := builtinType_injective hsame
    refine ⟨.ok (.bool (condition.test n k)), ?_, ?_, ?_⟩
    · cases op <;> cases hcond <;> simp [binary, SourceOp.bits, SourceOp.arithmetic, truth, SourceOp.condition]
    · rw [Execution.value_integer, Execution.value_integer]
      exact compare_runs x hbits harith hcond hn hk
    · rintro w h
      cases h
      exact ⟨trivial, rfl⟩

/-- Every operator but the logical ones. -/
theorem binary_agrees (hlog : op.logical = false) (hl : l.Valid) (hr : r.Valid)
    (hop : supportsConstBinary op l.ty r.ty) :
    ∃ result, binary floats op l r = some result ∧
      runBinary x.execute op l.ty r.ty (x.value l) (x.value r) = some (x.outcome result) ∧
      ∀ w, result = .ok w → w.Valid ∧ w.ty = op.result l.ty := by
  cases hbits : op.bits with
  | some bits =>
    rw [show op.result l.ty = l.ty by simp [SourceOp.result, hbits]]
    exact bits_agree x floats hbits hl hr hop
  | none =>
    cases harith : op.arithmetic with
    | some arithmetic =>
      rw [show op.result l.ty = l.ty by simp [SourceOp.result, harith]]
      exact arithmetic_agrees x floats harith hl hr hop
    | none =>
      rw [show op.result l.ty = .bool by simp [SourceOp.result, hbits, harith]]
      obtain ⟨condition, hcond⟩ : ∃ condition, op.condition = some condition := by
        cases op <;> first | (cases hlog; done) | (cases hbits; done) | (cases harith; done) | exact ⟨_, rfl⟩
      exact condition_agrees x floats hcond hl hr hop

end Binary

end Operators

end Kagari.Hir
