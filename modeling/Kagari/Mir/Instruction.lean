import Kagari.Contract.Effects

/-!
# MIR instructions

`kagari-mir/src/instruction.rs` with its operand views: `inputs`, `output`, `rewriteInputs` and
`effects`. Evidence that an instruction carries for the linker (call contracts, construction
targets, host path declarations) is the type parameter `P`: no function here looks into it.

`shape` is an instruction without its temporaries, what two instructions share when they do the
same to other temporaries.
-/

namespace Kagari.Mir

abbrev TempId := Nat

abbrev LocalId := Nat

abbrev BlockId := Nat

structure MirValue where
  temp : TempId
  ty : ValueType
deriving DecidableEq

/-- Floating-point constants are their bits. -/
inductive Constant where
  | unit
  | bool (value : Bool)
  | i32 (value : Int32)
  | i64 (value : Int64)
  | u64 (value : UInt64)
  | f32 (bits : UInt32)
  | f64 (bits : UInt64)
  | str (value : String)
  | char (value : Char)
deriving DecidableEq

structure AggregateFieldRef where
  owner : NominalTy
  slot : Nat
  reference : Option ReferenceAccess

structure PathRef (P : Type) where
  declaration : Option P
  contractFingerprint : Nat
  rootTy : ValueType
  resultTy : ValueType
  readOnly : Bool
  debugName : String

inductive RuntimeHelper where
  | reflectTypeOf
  | reflectGetField (field : String)
  | reflectSetField (field : String)
  | reflectSetIndex
  | dynamicCall

inductive CallTarget (P : Type) where
  | shared (call : P)
  | sourceFunction (contract : P)
  | function (instance_ : Nat)
  | interfaceMethod (contract : P)
  | native (target : P)
  | value (value : MirValue)
  | closure (value : MirValue) (params : List ValueType) (returnType : ValueType)
  | runtimePrimitive (primitive : RuntimePrimitive)
  | runtimeHelper (helper : RuntimeHelper)

structure StructFieldInit where
  slot : Nat
  value : MirValue

inductive Instruction (P : Type) where
  | await (dst value : MirValue) (future : Ty)
  | convert (dst src : MirValue) (conversion : NumericConversion)
  | numeric (dst : MirValue) (operation : NumericOperation) (lhs : MirValue)
      (rhs : Option MirValue)
  | iter (dst : MirValue) (value : Option MirValue) (ty : Ty) (op : IterOp)
  | loadConst (dst : MirValue) (constant : Constant)
  | loadLocal (dst : MirValue) (localId : LocalId)
  | loadModule (dst : MirValue) (slot : Nat)
  | storeLocal (localId : LocalId) (src : MirValue)
  | storeModule (slot : Nat) (src : MirValue)
  | move (dst src : MirValue)
  | unary (dst : MirValue) (op : UnaryOp) (operand : MirValue)
  | binary (dst : MirValue) (op : BinaryOp) (lhs rhs : MirValue)
  | call (dst : Option MirValue) (callee : CallTarget P) (args : List MirValue)
  | makeTuple (dst : MirValue) (elements : List MirValue)
  | rangeBound (dst value : MirValue) (range bound : Ty) (upper : Bool)
  | makeRange (dst : MirValue) (start stop : Option MirValue) (ty : Ty)
  | repeatArray (element : Ty) (dst value count : MirValue)
  | makeArray (element : Ty) (dst : MirValue) (elements : List MirValue)
  | makeFuture (dst : MirValue) (function : Nat) (arguments : List MirValue) (future : Ty)
  | makeClosure (dst : MirValue) (function : Nat) (captures : List MirValue)
  | makeCell (dst value : MirValue)
  | readCell (dst cell : MirValue)
  | writeCell (cell value : MirValue)
  | upcastInterface (dst value : MirValue) (source target : NominalTy)
  | makeInterface (dst value : MirValue) (target : P)
  | makeStruct (dst : MirValue) (structure_ : NominalTy) (fields : List StructFieldInit)
  | makeEnum (dst : MirValue) (enumeration : NominalTy) (variant : Nat) (fields : List MirValue)
  | testEnumVariant (dst value : MirValue) (enumeration : NominalTy) (variant : Nat)
  | readEnumPayload (dst value : MirValue) (enumeration : NominalTy) (variant index : Nat)
  | readAggregateField (dst base : MirValue) (field : AggregateFieldRef)
  | writeAggregateField (base : MirValue) (field : AggregateFieldRef) (value : MirValue)
  | readAggregateIndex (dst base index : MirValue)
  | writeAggregateIndex (base index value : MirValue)
  | readPath (dst rootOrView : MirValue) (path : PathRef P) (dynamicArgs : List MirValue)
  | setPath (rootOrView : MirValue) (path : PathRef P) (dynamicArgs : List MirValue)
      (value : MirValue)
  | modifyPath (dst : Option MirValue) (rootOrView : MirValue) (path : PathRef P)
      (dynamicArgs : List MirValue) (op : BinaryOp) (value : MirValue)
  | makePathView (dst rootOrView : MirValue) (path : PathRef P) (dynamicArgs : List MirValue)

inductive Terminator where
  | ret (value : Option MirValue)
  | jump (target : BlockId)
  | branch (cond : MirValue) (thenBlock elseBlock : BlockId)
  | unreachable
deriving DecidableEq

namespace CallTarget

variable {P : Type}

def inputs : CallTarget P → List MirValue
  | .value v => [v]
  | .closure v _ _ => [v]
  | _ => []

def rewriteInputs (rewrite : MirValue → MirValue) : CallTarget P → CallTarget P
  | .value v => .value (rewrite v)
  | .closure v params returnType => .closure (rewrite v) params returnType
  | callee => callee

def effects : CallTarget P → EffectSet
  | .function _ => .call
  | .sourceFunction _ => .call
  | .value _ => .call
  | .closure _ _ _ => .call
  | .interfaceMethod _ => .runtimeCall
  | .shared _ => .runtimeCall
  | .native _ => .nativeCall
  | .runtimePrimitive primitive => runtimePrimitiveEffects primitive
  | .runtimeHelper .dynamicCall => .runtimeCall
  | .runtimeHelper .reflectTypeOf => EffectSet.runtimeCall.union .aggregateRead
  | .runtimeHelper (.reflectGetField _) => EffectSet.runtimeCall.union .aggregateRead
  | .runtimeHelper (.reflectSetField _) => EffectSet.runtimeCall.union .aggregateWrite
  | .runtimeHelper .reflectSetIndex => EffectSet.runtimeCall.union .aggregateWrite

end CallTarget

namespace StructFieldInit

def rewrite (rewrite : MirValue → MirValue) (field : StructFieldInit) : StructFieldInit :=
  { field with value := rewrite field.value }

end StructFieldInit

namespace Terminator

/-- Both edges of a branch, also when they have the same target. -/
def successors : Terminator → List BlockId
  | .jump target => [target]
  | .branch _ thenBlock elseBlock => [thenBlock, elseBlock]
  | .ret _ => []
  | .unreachable => []

def input : Terminator → Option MirValue
  | .ret value => value
  | .branch cond _ _ => some cond
  | .jump _ => none
  | .unreachable => none

def rewriteInput (rewrite : MirValue → MirValue) : Terminator → Terminator
  | .ret value => .ret (value.map rewrite)
  | .branch cond thenBlock elseBlock => .branch (rewrite cond) thenBlock elseBlock
  | .jump target => .jump target
  | .unreachable => .unreachable

def effects : Terminator → EffectSet
  | .unreachable => { mayTrap := true }
  | _ => {}

@[simp] theorem successors_rewriteInput (rewrite : MirValue → MirValue) (t : Terminator) :
    (t.rewriteInput rewrite).successors = t.successors := by
  cases t <;> rfl

theorem rewriteInput_id (t : Terminator) : t.rewriteInput id = t := by
  cases t <;> simp [rewriteInput]

end Terminator

namespace Instruction

variable {P : Type}

/-- Temporary uses; the order is not evaluation order. -/
def inputs : Instruction P → List MirValue
  | .await _ value _ => [value]
  | .convert _ src _ => [src]
  | .numeric _ _ lhs rhs => lhs :: rhs.toList
  | .iter _ value _ _ => value.toList
  | .loadConst _ _ => []
  | .loadLocal _ _ => []
  | .loadModule _ _ => []
  | .storeLocal _ src => [src]
  | .storeModule _ src => [src]
  | .move _ src => [src]
  | .unary _ _ operand => [operand]
  | .rangeBound _ value _ _ _ => [value]
  | .makeRange _ start stop _ => start.toList ++ stop.toList
  | .repeatArray _ _ value count => [value, count]
  | .binary _ _ lhs rhs => [lhs, rhs]
  | .call _ callee args => args ++ callee.inputs
  | .makeTuple _ elements => elements
  | .makeArray _ _ elements => elements
  | .makeEnum _ _ _ fields => fields
  | .makeFuture _ _ arguments _ => arguments
  | .makeClosure _ _ captures => captures
  | .makeCell _ value => [value]
  | .readCell _ cell => [cell]
  | .writeCell cell value => [cell, value]
  | .makeStruct _ _ fields => fields.map (·.value)
  | .makeInterface _ value _ => [value]
  | .upcastInterface _ value _ _ => [value]
  | .testEnumVariant _ value _ _ => [value]
  | .readEnumPayload _ value _ _ _ => [value]
  | .readAggregateField _ base _ => [base]
  | .writeAggregateField base _ value => [base, value]
  | .readAggregateIndex _ base index => [base, index]
  | .writeAggregateIndex base index value => [base, index, value]
  | .readPath _ rootOrView _ dynamicArgs => dynamicArgs ++ [rootOrView]
  | .makePathView _ rootOrView _ dynamicArgs => dynamicArgs ++ [rootOrView]
  | .setPath rootOrView _ dynamicArgs value => dynamicArgs ++ [rootOrView, value]
  | .modifyPath _ rootOrView _ dynamicArgs _ value => dynamicArgs ++ [rootOrView, value]

/-- The temporary defined only after the instruction completes. -/
def output : Instruction P → Option MirValue
  | .await dst _ _ => some dst
  | .loadConst dst _ => some dst
  | .loadLocal dst _ => some dst
  | .loadModule dst _ => some dst
  | .move dst _ => some dst
  | .unary dst _ _ => some dst
  | .binary dst _ _ _ => some dst
  | .makeTuple dst _ => some dst
  | .makeArray _ dst _ => some dst
  | .repeatArray _ dst _ _ => some dst
  | .makeRange dst _ _ _ => some dst
  | .rangeBound dst _ _ _ _ => some dst
  | .makeFuture dst _ _ _ => some dst
  | .makeClosure dst _ _ => some dst
  | .makeCell dst _ => some dst
  | .readCell dst _ => some dst
  | .makeStruct dst _ _ => some dst
  | .convert dst _ _ => some dst
  | .numeric dst _ _ _ => some dst
  | .iter dst _ _ _ => some dst
  | .makeEnum dst _ _ _ => some dst
  | .makeInterface dst _ _ => some dst
  | .upcastInterface dst _ _ _ => some dst
  | .testEnumVariant dst _ _ _ => some dst
  | .readEnumPayload dst _ _ _ _ => some dst
  | .readAggregateField dst _ _ => some dst
  | .readAggregateIndex dst _ _ => some dst
  | .readPath dst _ _ _ => some dst
  | .makePathView dst _ _ _ => some dst
  | .call dst _ _ => dst
  | .modifyPath dst _ _ _ _ _ => dst
  | .storeLocal _ _ => none
  | .storeModule _ _ => none
  | .writeAggregateField _ _ _ => none
  | .writeAggregateIndex _ _ _ => none
  | .setPath _ _ _ _ => none
  | .writeCell _ _ => none

/-- Rewrite the temporaries read with `r` and the destination with `d`. -/
def rewrite (r d : MirValue → MirValue) : Instruction P → Instruction P
  | .await dst value future => .await (d dst) (r value) future
  | .convert dst src conversion => .convert (d dst) (r src) conversion
  | .numeric dst operation lhs rhs => .numeric (d dst) operation (r lhs) (rhs.map r)
  | .iter dst value ty op => .iter (d dst) (value.map r) ty op
  | .loadConst dst constant => .loadConst (d dst) constant
  | .loadLocal dst localId => .loadLocal (d dst) localId
  | .loadModule dst slot => .loadModule (d dst) slot
  | .storeLocal localId src => .storeLocal localId (r src)
  | .storeModule slot src => .storeModule slot (r src)
  | .move dst src => .move (d dst) (r src)
  | .unary dst op operand => .unary (d dst) op (r operand)
  | .binary dst op lhs rhs => .binary (d dst) op (r lhs) (r rhs)
  | .call dst callee args => .call (dst.map d) (callee.rewriteInputs r) (args.map r)
  | .makeTuple dst elements => .makeTuple (d dst) (elements.map r)
  | .rangeBound dst value range bound upper => .rangeBound (d dst) (r value) range bound upper
  | .makeRange dst start stop ty => .makeRange (d dst) (start.map r) (stop.map r) ty
  | .repeatArray element dst value count => .repeatArray element (d dst) (r value) (r count)
  | .makeArray element dst elements => .makeArray element (d dst) (elements.map r)
  | .makeFuture dst function arguments future =>
    .makeFuture (d dst) function (arguments.map r) future
  | .makeClosure dst function captures => .makeClosure (d dst) function (captures.map r)
  | .makeCell dst value => .makeCell (d dst) (r value)
  | .readCell dst cell => .readCell (d dst) (r cell)
  | .writeCell cell value => .writeCell (r cell) (r value)
  | .upcastInterface dst value source target => .upcastInterface (d dst) (r value) source target
  | .makeInterface dst value target => .makeInterface (d dst) (r value) target
  | .makeStruct dst structure_ fields => .makeStruct (d dst) structure_ (fields.map (·.rewrite r))
  | .makeEnum dst enumeration variant fields =>
    .makeEnum (d dst) enumeration variant (fields.map r)
  | .testEnumVariant dst value enumeration variant =>
    .testEnumVariant (d dst) (r value) enumeration variant
  | .readEnumPayload dst value enumeration variant index =>
    .readEnumPayload (d dst) (r value) enumeration variant index
  | .readAggregateField dst base field => .readAggregateField (d dst) (r base) field
  | .writeAggregateField base field value => .writeAggregateField (r base) field (r value)
  | .readAggregateIndex dst base index => .readAggregateIndex (d dst) (r base) (r index)
  | .writeAggregateIndex base index value => .writeAggregateIndex (r base) (r index) (r value)
  | .readPath dst rootOrView path dynamicArgs =>
    .readPath (d dst) (r rootOrView) path (dynamicArgs.map r)
  | .setPath rootOrView path dynamicArgs value =>
    .setPath (r rootOrView) path (dynamicArgs.map r) (r value)
  | .modifyPath dst rootOrView path dynamicArgs op value =>
    .modifyPath (dst.map d) (r rootOrView) path (dynamicArgs.map r) op (r value)
  | .makePathView dst rootOrView path dynamicArgs =>
    .makePathView (d dst) (r rootOrView) path (dynamicArgs.map r)

/-- Rewrite the temporaries an instruction reads. -/
def rewriteInputs (r : MirValue → MirValue) : Instruction P → Instruction P := rewrite r id

/-- The temporary index, left out. -/
def blank (v : MirValue) : MirValue := { v with temp := 0 }

/-- An instruction without its temporaries. -/
def shape : Instruction P → Instruction P := rewrite blank blank

def effects : Instruction P → EffectSet
  | .await _ _ _ => { EffectSet.nativeCall with maySuspend := true }
  | .loadConst _ _ => {}
  | .move _ _ => {}
  -- run-time conversion validates the source numeric domain
  | .convert _ _ _ => { mayTrap := true }
  | .numeric _ _ _ _ => { mayTrap := true }
  | .unary _ op operand =>
    { mayTrap := op == .neg && (operand.ty == .i32 || operand.ty == .i64) }
  | .binary _ op lhs _ =>
    let heapComparison :=
      (op == .eq || op == .notEq || op == .identityEq || op == .identityNotEq) &&
        lhs.ty == .heapObject
    let numeric := match op with
      | .numeric _ => true
      | _ => false
    let arithmetic := op == .add || op == .sub || op == .mul || op == .div || op == .rem
    { readsAggregate := heapComparison
      mayTrap := numeric || heapComparison ||
        (arithmetic && (lhs.ty == .i32 || lhs.ty == .i64 || lhs.ty == .u64)) }
  | .loadLocal _ _ => .localRead
  | .storeLocal _ _ => .localWrite
  | .loadModule _ _ => .moduleRead
  | .storeModule _ _ => .moduleWrite
  | .call _ callee _ => callee.effects
  | .makeRange _ _ _ _ => { mayTrap := true }
  | .makeTuple _ _ => .allocation
  | .makeArray _ _ _ => .allocation
  | .repeatArray _ _ _ _ => .allocation
  | .rangeBound _ _ _ _ _ => .allocation
  | .makeFuture _ _ _ _ => .allocation
  | .makeClosure _ _ _ => .allocation
  | .makeCell _ _ => .allocation
  | .makeInterface _ _ _ => .allocation
  | .upcastInterface _ _ _ _ => .allocation
  | .makeStruct _ _ _ => .allocation
  | .makeEnum _ _ _ _ => .allocation
  | .iter _ _ _ _ => EffectSet.allocation.union .aggregateWrite
  | .readAggregateField _ _ field =>
    if field.reference.isSome then .nativeCall else .aggregateRead
  | .writeAggregateField _ field _ =>
    if field.reference.isSome then .nativeCall else .aggregateWrite
  | .readCell _ _ => .aggregateRead
  | .readAggregateIndex _ _ _ => .aggregateRead
  | .testEnumVariant _ _ _ _ => .aggregateRead
  | .readEnumPayload _ _ _ _ _ => .aggregateRead
  | .writeAggregateIndex _ _ _ => .aggregateWrite
  | .writeCell _ _ => .aggregateWrite
  | .readPath _ _ _ _ => .pathRead
  | .makePathView _ _ _ _ => .pathRead
  | .setPath _ _ _ _ => .pathWrite
  | .modifyPath _ _ _ _ _ _ => EffectSet.pathRead.union .pathWrite

end Instruction

/-! ## Rewriting -/

variable {P : Type} (r d : MirValue → MirValue)

theorem CallTarget.inputs_rewriteInputs (r : MirValue → MirValue) (callee : CallTarget P) :
    (callee.rewriteInputs r).inputs = callee.inputs.map r := by
  cases callee <;> rfl

theorem CallTarget.rewriteInputs_congr {r r' : MirValue → MirValue}
    {callee : CallTarget P} (h : ∀ v ∈ callee.inputs, r v = r' v) :
    callee.rewriteInputs r = callee.rewriteInputs r' := by
  cases callee <;> simp_all [rewriteInputs, inputs]

theorem CallTarget.rewriteInputs_rewriteInputs (r r' : MirValue → MirValue)
    (callee : CallTarget P) :
    (callee.rewriteInputs r).rewriteInputs r' = callee.rewriteInputs (r' ∘ r) := by
  cases callee <;> rfl

theorem CallTarget.rewriteInputs_id (callee : CallTarget P) :
    callee.rewriteInputs id = callee := by
  cases callee <;> rfl

theorem CallTarget.effects_rewriteInputs (r : MirValue → MirValue)
    (callee : CallTarget P) : (callee.rewriteInputs r).effects = callee.effects := by
  cases callee <;> rfl

namespace Instruction

variable {P : Type}

attribute [local simp] rewrite inputs output effects StructFieldInit.rewrite

@[simp] theorem inputs_rewrite (i : Instruction P) :
    (i.rewrite r d).inputs = i.inputs.map r := by
  cases i <;> simp [Option.toList_map, CallTarget.inputs_rewriteInputs]

@[simp] theorem output_rewrite (i : Instruction P) :
    (i.rewrite r d).output = i.output.map d := by
  cases i <;> rfl

variable {i : Instruction P}

/-- Only what is read and written matters. -/
theorem rewrite_congr {r r' d d' : MirValue → MirValue}
    (hr : ∀ v ∈ i.inputs, r v = r' v) (hd : ∀ v ∈ i.output, d v = d' v) :
    i.rewrite r d = i.rewrite r' d' := by
  cases i <;> simp_all [Option.mem_toList, or_imp, forall_and]
  case numeric => exact Option.map_congr hr.2
  case iter => exact Option.map_congr hr
  case call => exact ⟨Option.map_congr hd, CallTarget.rewriteInputs_congr hr.2⟩
  case makeRange => exact ⟨Option.map_congr hr.1, Option.map_congr hr.2⟩
  case modifyPath => exact Option.map_congr hd

theorem rewrite_rewrite (r d r' d' : MirValue → MirValue) (i : Instruction P) :
    (i.rewrite r d).rewrite r' d' = i.rewrite (r' ∘ r) (d' ∘ d) := by
  cases i <;> simp [CallTarget.rewriteInputs_rewriteInputs, Function.comp_def]

theorem rewrite_id (i : Instruction P) : i.rewrite id id = i := by
  cases i <;> simp [CallTarget.rewriteInputs_id]

/-- Rewriting that keeps the types keeps the shape. -/
theorem shape_rewrite {r d : MirValue → MirValue}
    (hr : ∀ v ∈ i.inputs, (r v).ty = v.ty) (hd : ∀ v ∈ i.output, (d v).ty = v.ty) :
    (i.rewrite r d).shape = i.shape := by
  unfold shape
  rw [rewrite_rewrite]
  apply rewrite_congr
  · intro v hv
    simp [blank, hr v hv]
  · intro v hv
    simp [blank, hd v hv]

theorem effects_rewrite {r d : MirValue → MirValue}
    (hr : ∀ v ∈ i.inputs, (r v).ty = v.ty) : (i.rewrite r d).effects = i.effects := by
  cases i <;> simp_all [CallTarget.effects_rewriteInputs]

/-- Whether an instruction calls does not depend on its operands. -/
theorem calls_rewrite (i : Instruction P) :
    (i.rewrite r d).effects.calls = i.effects.calls := by
  cases i <;> simp [CallTarget.effects_rewriteInputs]

end Instruction

end Kagari.Mir
