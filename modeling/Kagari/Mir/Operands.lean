import Kagari.Mir.Instruction

/-!
# Operand views

`inputs`, `output` and `rewrite_inputs` are three case analyses over the instructions
(`kagari-mir/src/instruction/operands.rs`, `rewrite.rs`). `rewriteInputsM` hands the operands to a
closure in the source's order, and the closure may keep a state; what it puts for the operands is
`rewriteInputs` (`run_recording_inputs`). What it hands over is what `inputs` lists
(`handed_perm_inputs`).
-/

namespace Kagari.Mir

/-- Another temporary of the same value type. -/
def MirValue.rename (f : TempId → TempId) (v : MirValue) : MirValue := { v with temp := f v.temp }

theorem MirValue.rename_id : MirValue.rename id = id := rfl

theorem MirValue.rename_comp (f g : TempId → TempId) :
    MirValue.rename (g ∘ f) = MirValue.rename g ∘ MirValue.rename f := rfl

section Closure

variable {P : Type} {m : Type → Type} [Monad m]

def CallTarget.rewriteInputsM (rewrite : MirValue → m MirValue) : CallTarget P → m (CallTarget P)
  | .value v => return .value (← rewrite v)
  | .closure v params returnType => return .closure (← rewrite v) params returnType
  | callee => return callee

def StructFieldInit.rewriteM (rewrite : MirValue → m MirValue) (field : StructFieldInit) :
    m StructFieldInit :=
  return { field with value := ← rewrite field.value }

/-- `rewrite_inputs`: every operand is replaced by what the closure makes of it. -/
def Instruction.rewriteInputsM (rewrite : MirValue → m MirValue) :
    Instruction P → m (Instruction P)
  | .loadConst dst constant => return .loadConst dst constant
  | .loadLocal dst localId => return .loadLocal dst localId
  | .loadModule dst slot => return .loadModule dst slot
  | .convert dst src conversion => return .convert dst (← rewrite src) conversion
  | .storeLocal localId src => return .storeLocal localId (← rewrite src)
  | .storeModule slot src => return .storeModule slot (← rewrite src)
  | .move dst src => return .move dst (← rewrite src)
  | .unary dst op operand => return .unary dst op (← rewrite operand)
  | .numeric dst operation lhs rhs => do
    let lhs ← rewrite lhs
    let rhs ← rhs.mapM rewrite
    return .numeric dst operation lhs rhs
  | .iter dst value ty op => return .iter dst (← value.mapM rewrite) ty op
  | .binary dst op lhs rhs => do
    let lhs ← rewrite lhs
    let rhs ← rewrite rhs
    return .binary dst op lhs rhs
  | .call dst callee args => do
    let callee ← callee.rewriteInputsM rewrite
    let args ← args.mapM rewrite
    return .call dst callee args
  | .makeTuple dst elements => return .makeTuple dst (← elements.mapM rewrite)
  | .makeArray element dst elements => return .makeArray element dst (← elements.mapM rewrite)
  | .makeEnum dst enumeration variant fields =>
    return .makeEnum dst enumeration variant (← fields.mapM rewrite)
  | .makeClosure dst function captures => return .makeClosure dst function (← captures.mapM rewrite)
  | .makeFuture dst function arguments future =>
    return .makeFuture dst function (← arguments.mapM rewrite) future
  | .await dst value future => return .await dst (← rewrite value) future
  | .rangeBound dst value range bound upper =>
    return .rangeBound dst (← rewrite value) range bound upper
  | .makeCell dst value => return .makeCell dst (← rewrite value)
  | .makeInterface dst value target => return .makeInterface dst (← rewrite value) target
  | .upcastInterface dst value source target =>
    return .upcastInterface dst (← rewrite value) source target
  | .testEnumVariant dst value enumeration variant =>
    return .testEnumVariant dst (← rewrite value) enumeration variant
  | .readEnumPayload dst value enumeration variant index =>
    return .readEnumPayload dst (← rewrite value) enumeration variant index
  | .makeRange dst start stop ty => do
    let start ← start.mapM rewrite
    let stop ← stop.mapM rewrite
    return .makeRange dst start stop ty
  | .repeatArray element dst value count => do
    let value ← rewrite value
    let count ← rewrite count
    return .repeatArray element dst value count
  | .readCell dst cell => return .readCell dst (← rewrite cell)
  | .writeCell cell value => do
    let cell ← rewrite cell
    let value ← rewrite value
    return .writeCell cell value
  | .makeStruct dst structure_ fields =>
    return .makeStruct dst structure_ (← fields.mapM (StructFieldInit.rewriteM rewrite))
  | .readAggregateField dst base field => return .readAggregateField dst (← rewrite base) field
  | .writeAggregateField base field value => do
    let base ← rewrite base
    let value ← rewrite value
    return .writeAggregateField base field value
  | .readAggregateIndex dst base index => do
    let base ← rewrite base
    let index ← rewrite index
    return .readAggregateIndex dst base index
  | .writeAggregateIndex base index value => do
    let base ← rewrite base
    let index ← rewrite index
    let value ← rewrite value
    return .writeAggregateIndex base index value
  | .readPath dst rootOrView path dynamicArgs => do
    let rootOrView ← rewrite rootOrView
    let dynamicArgs ← dynamicArgs.mapM rewrite
    return .readPath dst rootOrView path dynamicArgs
  | .makePathView dst rootOrView path dynamicArgs => do
    let rootOrView ← rewrite rootOrView
    let dynamicArgs ← dynamicArgs.mapM rewrite
    return .makePathView dst rootOrView path dynamicArgs
  | .setPath rootOrView path dynamicArgs value => do
    let rootOrView ← rewrite rootOrView
    let dynamicArgs ← dynamicArgs.mapM rewrite
    let value ← rewrite value
    return .setPath rootOrView path dynamicArgs value
  | .modifyPath dst rootOrView path dynamicArgs op value => do
    let rootOrView ← rewrite rootOrView
    let dynamicArgs ← dynamicArgs.mapM rewrite
    let value ← rewrite value
    return .modifyPath dst rootOrView path dynamicArgs op value

end Closure

/-! ## The operands that are handed over -/

section Trace

variable {P : Type}

/-- A closure that keeps a list of the operands it was handed. -/
def recording (r : MirValue → MirValue) (v : MirValue) : StateM (List MirValue) MirValue :=
  fun handed => (r v, handed ++ [v])

/-- The operands in the order in which `rewrite_inputs` hands them over: callees and path roots come
before the arguments. -/
def Instruction.handed : Instruction P → List MirValue
  | .call _ callee args => callee.inputs ++ args
  | .readPath _ rootOrView _ dynamicArgs => rootOrView :: dynamicArgs
  | .makePathView _ rootOrView _ dynamicArgs => rootOrView :: dynamicArgs
  | .setPath rootOrView _ dynamicArgs value => rootOrView :: (dynamicArgs ++ [value])
  | .modifyPath _ rootOrView _ dynamicArgs _ value => rootOrView :: (dynamicArgs ++ [value])
  | i => i.inputs

/-- Every input is handed over as often as `inputs` lists it. -/
theorem Instruction.handed_perm_inputs (i : Instruction P) : i.handed.Perm i.inputs := by
  cases i with
  | call dst callee args => exact List.perm_append_comm
  | readPath dst rootOrView path dynamicArgs | makePathView dst rootOrView path dynamicArgs =>
    exact (List.perm_append_singleton rootOrView dynamicArgs).symm
  | setPath rootOrView path dynamicArgs value | modifyPath dst rootOrView path dynamicArgs op value =>
    exact List.perm_middle.symm
  | _ => exact List.Perm.refl _

variable (r : MirValue → MirValue)

@[simp] theorem run_recording (v : MirValue) (handed : List MirValue) :
    (recording r v).run handed = pure (r v, handed ++ [v]) := rfl

@[simp] theorem run_recording_list (values handed : List MirValue) :
    (values.mapM (recording r)).run handed = pure (values.map r, handed ++ values) := by
  induction values generalizing handed with
  | nil => simp
  | cons v values ih => simp [ih]

@[simp] theorem run_recording_option (value : Option MirValue) (handed : List MirValue) :
    (value.mapM (recording r)).run handed = pure (value.map r, handed ++ value.toList) := by
  cases value <;> simp

@[simp] theorem run_recording_callee (callee : CallTarget P) (handed : List MirValue) :
    (callee.rewriteInputsM (recording r)).run handed =
      pure (callee.rewriteInputs r, handed ++ callee.inputs) := by
  cases callee <;> simp [CallTarget.rewriteInputsM, CallTarget.rewriteInputs, CallTarget.inputs]

@[simp] theorem run_recording_fields (fields : List StructFieldInit) (handed : List MirValue) :
    (fields.mapM (StructFieldInit.rewriteM (recording r))).run handed =
      pure (fields.map (·.rewrite r), handed ++ fields.map (·.value)) := by
  induction fields generalizing handed with
  | nil => simp
  | cons field fields ih => simp [StructFieldInit.rewriteM, StructFieldInit.rewrite, ih]

/-- The operands are rewritten one by one, each when it is handed over. -/
theorem Instruction.run_recording_inputs (i : Instruction P) (handed : List MirValue) :
    (i.rewriteInputsM (recording r)).run handed = pure (i.rewriteInputs r, handed ++ i.handed) := by
  cases i <;> simp [rewriteInputsM, rewriteInputs, rewrite, Instruction.handed, inputs]

end Trace

/-! ## Agreement -/

variable (f : TempId → TempId)

namespace Instruction

variable {P : Type}

theorem rewriteInputs_comp (r r' : MirValue → MirValue) (i : Instruction P) :
    (i.rewriteInputs r).rewriteInputs r' = i.rewriteInputs (r' ∘ r) :=
  rewrite_rewrite r id r' id i

/-- A renaming keeps the value types, and with them what the instruction may do. -/
theorem effects_rewriteInputs_rename (i : Instruction P) :
    (i.rewriteInputs (MirValue.rename f)).effects = i.effects :=
  effects_rewrite (fun _ _ => rfl)

theorem shape_rewriteInputs_rename (i : Instruction P) :
    (i.rewriteInputs (MirValue.rename f)).shape = i.shape :=
  shape_rewrite (fun _ _ => rfl) (fun _ _ => rfl)

/-- The operand views of an instruction agree. The closure of `rewrite_inputs` is handed the values
that `inputs` lists, with the same multiplicity, and what it makes of them are the inputs of the
rewritten instruction, in the same order. A renaming leaves the output, the effects and everything
that is no temporary as it was; renaming by the identity changes nothing, and renaming twice is
renaming by the composition. -/
theorem operandViews_agree (i : Instruction P) :
    (∀ r : MirValue → MirValue,
      (i.rewriteInputsM (recording r)).run [] = (i.rewriteInputs r, i.handed) ∧
      i.handed.Perm i.inputs ∧
      (i.rewriteInputs r).inputs = i.inputs.map r ∧
      (i.rewriteInputs r).output = i.output) ∧
    (∀ f : TempId → TempId,
      (i.rewriteInputs (MirValue.rename f)).effects = i.effects ∧
      (i.rewriteInputs (MirValue.rename f)).shape = i.shape) ∧
    i.rewriteInputs (MirValue.rename id) = i ∧
    ∀ f g : TempId → TempId,
      (i.rewriteInputs (MirValue.rename f)).rewriteInputs (MirValue.rename g) =
        i.rewriteInputs (MirValue.rename (g ∘ f)) := by
  refine ⟨fun r => ⟨?_, i.handed_perm_inputs, inputs_rewrite r id i, ?_⟩, fun f => ⟨?_, ?_⟩, ?_,
    fun f g => ?_⟩
  · rw [run_recording_inputs, List.nil_append]
    rfl
  · exact (output_rewrite r id i).trans (congrFun Option.map_id _)
  · exact effects_rewriteInputs_rename f i
  · exact shape_rewriteInputs_rename f i
  · rw [MirValue.rename_id]
    exact rewrite_id i
  · rw [rewriteInputs_comp, MirValue.rename_comp]

end Instruction

end Kagari.Mir
