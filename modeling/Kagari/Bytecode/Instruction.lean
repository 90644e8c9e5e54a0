import Kagari.Contract.Operations

/-!
# Bytecode instructions

`kagari-bytecode/src/instruction.rs` and its operand views: `slotInputs`, `slotOutput` and
`rewriteSlots`. Evidence that an instruction carries for the linker (call contracts,
construction targets, primitives) is the type parameter `P`: no function here looks into it.

The three views agree: `slotInputs_rewriteSlots` and `slotOutput_rewriteSlots`.
-/

namespace Kagari.Bytecode

abbrev Slot := Nat

abbrev ConstantId := Nat

abbrev JumpTarget := Nat

inductive BinaryOp where
  | numeric (operation : NumericOperation)
  | add | sub | mul | div | rem | eq | notEq | identityEq | identityNotEq | lt | gt | le | ge
deriving DecidableEq

/-- A numeric constant retains its full source width, not just its physical carrier. -/
inductive ScalarOperand where
  | slot (slot : Slot)
  | constant (constant : ConstantId) (ty : BuiltinType)
deriving DecidableEq

variable (rewrite : Slot → Slot)

namespace ScalarOperand

def slot? : ScalarOperand → Option Slot
  | .slot s => some s
  | .constant _ _ => none

def rewriteSlot (rewrite : Slot → Slot) : ScalarOperand → ScalarOperand
  | .slot s => .slot (rewrite s)
  | .constant c ty => .constant c ty

@[simp] theorem slot?_rewriteSlot (operand : ScalarOperand) :
    (operand.rewriteSlot rewrite).slot? = operand.slot?.map rewrite := by
  cases operand <;> rfl

end ScalarOperand

/-- What a call enters. Only the two register forms name slots. -/
inductive CallTarget (P : Type) where
  | shared (module : Nat) (target contract : P)
  | moduleFunction (module function : Nat)
  | function (function : Nat)
  | interfaceMethod (module : Nat) (contract : P)
  | native (id : Nat)
  | slot (slot : Slot)
  | closureRegister (register : Slot) (params : List ValueType) (returnType : ValueType)
  | runtimePrimitive (primitive : P)
  | runtimeHelper (helper : P)

structure FieldRef where
  structure_ : Nat
  arguments : List Ty
  slot : Nat
  reference : Option ReferenceAccess

inductive BytecodeInstruction (P : Type) where
  | await (dst value : Slot) (future : Ty)
  | convert (dst src : Slot) (conversion : NumericConversion)
  | numeric (dst : Slot) (operation : NumericOperation) (lhs : Slot) (rhs : Option Slot)
  | iter (dst : Slot) (value : Option Slot) (ty : Ty) (op : IterOp)
  | loadConst (dst : Slot) (constant : ConstantId)
  | loadModule (dst : Slot) (slot : Nat)
  | storeModule (slot : Nat) (src : Slot)
  | move (dst src : Slot)
  | unary (dst : Slot) (op : UnaryOp) (operand : Slot)
  | binary (dst : Slot) (op : BinaryOp) (lhs rhs : Slot)
  | binaryOperands (dst : Slot) (op : BinaryOp) (lhs rhs : ScalarOperand)
  | predicateBranch (op : BinaryOp) (lhs rhs : ScalarOperand) (negated : Bool)
      (thenTarget elseTarget : JumpTarget)
  | call (dst : Option Slot) (callee : CallTarget P) (args : List Slot)
  | makeTuple (dst : Slot) (elements : List Slot)
  | rangeBound (dst value : Slot) (range bound : Ty) (upper : Bool)
  | makeRange (dst : Slot) (start stop : Option Slot) (ty : Ty)
  | repeatArray (element : Ty) (dst value count : Slot)
  | makeArray (element : Ty) (dst : Slot) (elements : List Slot)
  | makeFuture (dst : Slot) (function : Nat) (arguments : List Slot) (future : Ty)
  | makeClosure (dst : Slot) (function : Nat) (captures : List Slot)
  | makeCell (dst value : Slot)
  | readCell (dst cell : Slot)
  | writeCell (cell value : Slot)
  | upcastInterface (dst value : Slot) (source target : NominalTy)
  | makeInterface (dst value : Slot) (target : P)
  | makeStruct (dst : Slot) (structure_ : Nat) (arguments : List Ty) (fields : List Slot)
  | makeEnum (dst : Slot) (enumeration : Nat) (arguments : List Ty) (variant : Nat)
      (fields : List Slot)
  | testEnumVariant (dst value : Slot) (enumeration : Nat) (arguments : List Ty) (variant : Nat)
  | readEnumPayload (dst value : Slot) (enumeration : Nat) (arguments : List Ty)
      (variant index : Nat)
  | readAggregateField (dst base : Slot) (field : FieldRef)
  | writeAggregateField (base : Slot) (field : FieldRef) (value : Slot)
  | readAggregateIndex (dst base index : Slot)
  | writeAggregateIndex (base index value : Slot)
  | readPath (dst rootOrView : Slot) (path : Nat) (dynamicArgs : List Slot)
  | setPath (rootOrView : Slot) (path : Nat) (dynamicArgs : List Slot) (value : Slot)
  | modifyPath (dst : Option Slot) (rootOrView : Slot) (path : Nat) (dynamicArgs : List Slot)
      (op : BinaryOp) (value : Slot)
  | makePathView (dst rootOrView : Slot) (path : Nat) (dynamicArgs : List Slot)
  | jump (target : JumpTarget)
  | branch (cond : Slot) (thenTarget elseTarget : JumpTarget)
  | ret (value : Option Slot)
  | unreachable

namespace CallTarget

variable {P : Type}

/-- The slot a register target reads, after the arguments. -/
def slotInputs : CallTarget P → List Slot
  | .slot s => [s]
  | .closureRegister register _ _ => [register]
  | _ => []

def rewriteSlots (rewrite : Slot → Slot) : CallTarget P → CallTarget P
  | .slot s => .slot (rewrite s)
  | .closureRegister register params returnType =>
    .closureRegister (rewrite register) params returnType
  | callee => callee

@[simp] theorem slotInputs_rewriteSlots (callee : CallTarget P) :
    (callee.rewriteSlots rewrite).slotInputs = callee.slotInputs.map rewrite := by
  cases callee <;> rfl

end CallTarget

namespace BytecodeInstruction

variable {P : Type}

/-- The slots an instruction reads, in the order of the source. -/
def slotInputs : BytecodeInstruction P → List Slot
  | .await _ value _ => [value]
  | .convert _ src _ => [src]
  | .numeric _ _ lhs rhs => lhs :: rhs.toList
  | .iter _ value _ _ => value.toList
  | .loadConst _ _ => []
  | .loadModule _ _ => []
  | .storeModule _ src => [src]
  | .move _ src => [src]
  | .unary _ _ operand => [operand]
  | .jump _ => []
  | .unreachable => []
  | .branch cond _ _ => [cond]
  | .ret value => value.toList
  | .rangeBound _ value _ _ _ => [value]
  | .makeRange _ start stop _ => start.toList ++ stop.toList
  | .repeatArray _ _ value count => [value, count]
  | .binary _ _ lhs rhs => [lhs, rhs]
  | .binaryOperands _ _ lhs rhs => lhs.slot?.toList ++ rhs.slot?.toList
  | .predicateBranch _ lhs rhs _ _ _ => lhs.slot?.toList ++ rhs.slot?.toList
  | .call _ callee args => args ++ callee.slotInputs
  | .makeTuple _ elements => elements
  | .makeArray _ _ elements => elements
  | .makeEnum _ _ _ _ fields => fields
  | .makeFuture _ _ arguments _ => arguments
  | .makeClosure _ _ captures => captures
  | .makeCell _ value => [value]
  | .readCell _ cell => [cell]
  | .writeCell cell value => [cell, value]
  | .makeStruct _ _ _ fields => fields
  | .makeInterface _ value _ => [value]
  | .upcastInterface _ value _ _ => [value]
  | .testEnumVariant _ value _ _ _ => [value]
  | .readEnumPayload _ value _ _ _ _ => [value]
  | .readAggregateField _ base _ => [base]
  | .writeAggregateField base _ value => [base, value]
  | .readAggregateIndex _ base index => [base, index]
  | .writeAggregateIndex base index value => [base, index, value]
  | .readPath _ rootOrView _ dynamicArgs => dynamicArgs ++ [rootOrView]
  | .makePathView _ rootOrView _ dynamicArgs => dynamicArgs ++ [rootOrView]
  | .setPath rootOrView _ dynamicArgs value => dynamicArgs ++ [rootOrView, value]
  | .modifyPath _ rootOrView _ dynamicArgs _ value => dynamicArgs ++ [rootOrView, value]

/-- The slot an instruction writes. -/
def slotOutput : BytecodeInstruction P → Option Slot
  | .loadConst dst _ => some dst
  | .loadModule dst _ => some dst
  | .move dst _ => some dst
  | .unary dst _ _ => some dst
  | .binary dst _ _ _ => some dst
  | .binaryOperands dst _ _ _ => some dst
  | .makeTuple dst _ => some dst
  | .makeArray _ dst _ => some dst
  | .repeatArray _ dst _ _ => some dst
  | .makeRange dst _ _ _ => some dst
  | .rangeBound dst _ _ _ _ => some dst
  | .makeFuture dst _ _ _ => some dst
  | .makeClosure dst _ _ => some dst
  | .makeCell dst _ => some dst
  | .readCell dst _ => some dst
  | .makeStruct dst _ _ _ => some dst
  | .await dst _ _ => some dst
  | .convert dst _ _ => some dst
  | .numeric dst _ _ _ => some dst
  | .iter dst _ _ _ => some dst
  | .makeEnum dst _ _ _ _ => some dst
  | .makeInterface dst _ _ => some dst
  | .upcastInterface dst _ _ _ => some dst
  | .testEnumVariant dst _ _ _ _ => some dst
  | .readEnumPayload dst _ _ _ _ _ => some dst
  | .readAggregateField dst _ _ => some dst
  | .readAggregateIndex dst _ _ => some dst
  | .readPath dst _ _ _ => some dst
  | .makePathView dst _ _ _ => some dst
  | .call dst _ _ => dst
  | .modifyPath dst _ _ _ _ _ => dst
  | .storeModule _ _ => none
  | .writeAggregateField _ _ _ => none
  | .writeAggregateIndex _ _ _ => none
  | .setPath _ _ _ _ => none
  | .writeCell _ _ => none
  | .ret _ => none
  | .jump _ => none
  | .branch _ _ _ => none
  | .predicateBranch _ _ _ _ _ _ => none
  | .unreachable => none

/-- Rewrite every slot of an instruction, its destination included. -/
def rewriteSlots (rewrite : Slot → Slot) : BytecodeInstruction P → BytecodeInstruction P
  | .await dst value future => .await (rewrite dst) (rewrite value) future
  | .convert dst src conversion => .convert (rewrite dst) (rewrite src) conversion
  | .numeric dst operation lhs rhs =>
    .numeric (rewrite dst) operation (rewrite lhs) (rhs.map rewrite)
  | .iter dst value ty op => .iter (rewrite dst) (value.map rewrite) ty op
  | .loadConst dst constant => .loadConst (rewrite dst) constant
  | .loadModule dst slot => .loadModule (rewrite dst) slot
  | .storeModule slot src => .storeModule slot (rewrite src)
  | .move dst src => .move (rewrite dst) (rewrite src)
  | .unary dst op operand => .unary (rewrite dst) op (rewrite operand)
  | .binaryOperands dst op lhs rhs =>
    .binaryOperands (rewrite dst) op (lhs.rewriteSlot rewrite) (rhs.rewriteSlot rewrite)
  | .predicateBranch op lhs rhs negated thenTarget elseTarget =>
    .predicateBranch op (lhs.rewriteSlot rewrite) (rhs.rewriteSlot rewrite) negated
      thenTarget elseTarget
  | .binary dst op lhs rhs => .binary (rewrite dst) op (rewrite lhs) (rewrite rhs)
  | .call dst callee args =>
    .call (dst.map rewrite) (callee.rewriteSlots rewrite) (args.map rewrite)
  | .makeTuple dst elements => .makeTuple (rewrite dst) (elements.map rewrite)
  | .rangeBound dst value range bound upper =>
    .rangeBound (rewrite dst) (rewrite value) range bound upper
  | .makeRange dst start stop ty =>
    .makeRange (rewrite dst) (start.map rewrite) (stop.map rewrite) ty
  | .repeatArray element dst value count =>
    .repeatArray element (rewrite dst) (rewrite value) (rewrite count)
  | .makeArray element dst elements => .makeArray element (rewrite dst) (elements.map rewrite)
  | .makeFuture dst function arguments future =>
    .makeFuture (rewrite dst) function (arguments.map rewrite) future
  | .makeClosure dst function captures => .makeClosure (rewrite dst) function (captures.map rewrite)
  | .makeCell dst value => .makeCell (rewrite dst) (rewrite value)
  | .readCell dst cell => .readCell (rewrite dst) (rewrite cell)
  | .writeCell cell value => .writeCell (rewrite cell) (rewrite value)
  | .upcastInterface dst value source target =>
    .upcastInterface (rewrite dst) (rewrite value) source target
  | .makeInterface dst value target => .makeInterface (rewrite dst) (rewrite value) target
  | .makeStruct dst structure_ arguments fields =>
    .makeStruct (rewrite dst) structure_ arguments (fields.map rewrite)
  | .makeEnum dst enumeration arguments variant fields =>
    .makeEnum (rewrite dst) enumeration arguments variant (fields.map rewrite)
  | .testEnumVariant dst value enumeration arguments variant =>
    .testEnumVariant (rewrite dst) (rewrite value) enumeration arguments variant
  | .readEnumPayload dst value enumeration arguments variant index =>
    .readEnumPayload (rewrite dst) (rewrite value) enumeration arguments variant index
  | .readAggregateField dst base field => .readAggregateField (rewrite dst) (rewrite base) field
  | .writeAggregateField base field value =>
    .writeAggregateField (rewrite base) field (rewrite value)
  | .readAggregateIndex dst base index =>
    .readAggregateIndex (rewrite dst) (rewrite base) (rewrite index)
  | .writeAggregateIndex base index value =>
    .writeAggregateIndex (rewrite base) (rewrite index) (rewrite value)
  | .readPath dst rootOrView path dynamicArgs =>
    .readPath (rewrite dst) (rewrite rootOrView) path (dynamicArgs.map rewrite)
  | .setPath rootOrView path dynamicArgs value =>
    .setPath (rewrite rootOrView) path (dynamicArgs.map rewrite) (rewrite value)
  | .modifyPath dst rootOrView path dynamicArgs op value =>
    .modifyPath (dst.map rewrite) (rewrite rootOrView) path (dynamicArgs.map rewrite) op
      (rewrite value)
  | .makePathView dst rootOrView path dynamicArgs =>
    .makePathView (rewrite dst) (rewrite rootOrView) path (dynamicArgs.map rewrite)
  | .branch cond thenTarget elseTarget => .branch (rewrite cond) thenTarget elseTarget
  | .ret value => .ret (value.map rewrite)
  | .jump target => .jump target
  | .unreachable => .unreachable

@[simp] theorem slotInputs_rewriteSlots (i : BytecodeInstruction P) :
    (i.rewriteSlots rewrite).slotInputs = i.slotInputs.map rewrite := by
  cases i <;> simp [rewriteSlots, slotInputs, Option.toList_map]

@[simp] theorem slotOutput_rewriteSlots (i : BytecodeInstruction P) :
    (i.rewriteSlots rewrite).slotOutput = i.slotOutput.map rewrite := by
  cases i <;> rfl

theorem rewriteSlots_id (i : BytecodeInstruction P) : i.rewriteSlots id = i := by
  have hid : ∀ operand : ScalarOperand, operand.rewriteSlot id = operand := by rintro (_ | _) <;> rfl
  cases i with
  | call dst callee args => cases callee <;> simp [rewriteSlots, CallTarget.rewriteSlots]
  | _ => simp [rewriteSlots, hid]

theorem rewriteSlots_comp (r q : Slot → Slot) (i : BytecodeInstruction P) :
    (i.rewriteSlots r).rewriteSlots q = i.rewriteSlots (q ∘ r) := by
  have hcomp : ∀ operand : ScalarOperand,
      (operand.rewriteSlot r).rewriteSlot q = operand.rewriteSlot (q ∘ r) := by
    rintro (_ | _) <;> rfl
  cases i with
  | call dst callee args => cases callee <;> simp [rewriteSlots, CallTarget.rewriteSlots]
  | _ => simp [rewriteSlots, hcomp]

theorem rewriteSlots_congr {r q : Slot → Slot} {i : BytecodeInstruction P} (hinps : ∀ s ∈ i.slotInputs, r s = q s)
    (hout : ∀ s, i.slotOutput = some s → r s = q s) : i.rewriteSlots r = i.rewriteSlots q := by
  have hopnd : ∀ operand : ScalarOperand, (∀ s, operand.slot? = some s → r s = q s) →
      operand.rewriteSlot r = operand.rewriteSlot q := by
    rintro (_ | _) h <;> simp_all [ScalarOperand.rewriteSlot, ScalarOperand.slot?]
  have hoption : ∀ slot : Option Slot, (∀ s, slot = some s → r s = q s) → slot.map r = slot.map q :=
    fun _ h => Option.map_congr h
  cases i with
  | call dst callee args =>
    cases callee <;> simp_all [rewriteSlots, slotInputs, slotOutput, CallTarget.rewriteSlots, CallTarget.slotInputs]
  | _ => simp_all [rewriteSlots, slotInputs, slotOutput]

/-- The operand views agree: a renaming renames exactly the slots that `slotInputs` and `slotOutput` name,
each in its place. Renaming by the identity changes nothing, renaming twice is renaming by the composition,
and only the slots that are named matter. -/
theorem slotViews_agree (i : BytecodeInstruction P) (r q : Slot → Slot) :
    (i.rewriteSlots r).slotInputs = i.slotInputs.map r ∧
    (i.rewriteSlots r).slotOutput = i.slotOutput.map r ∧
    i.rewriteSlots id = i ∧
    (i.rewriteSlots r).rewriteSlots q = i.rewriteSlots (q ∘ r) ∧
    ((∀ s, s ∈ i.slotInputs ∨ i.slotOutput = some s → r s = q s) → i.rewriteSlots r = i.rewriteSlots q) :=
  ⟨i.slotInputs_rewriteSlots r, i.slotOutput_rewriteSlots r, i.rewriteSlots_id, i.rewriteSlots_comp r q,
    fun h => rewriteSlots_congr (fun s hs => h s (.inl hs)) fun s hs => h s (.inr hs)⟩

end BytecodeInstruction

end Kagari.Bytecode
