import Kagari.Mir.Verify.Analysis

/-!
# The MIR verifier

`verify_function` of `kagari-mir/src/verify.rs`. What it looks up outside the function (public
signatures, the scope of a type, the contracts of operations other than constants, locals and
moves, positions in the source text) is a parameter: `Checks`. Of a contract it is known that it
sees the operation without its temporaries, and the semantic types of its operands.
-/

namespace Kagari.Mir

open Lib

def builtinRepresentation : BuiltinType → ValueType
  | .never => .never
  | .unit => .unit
  | .bool => .bool
  | .i8 | .i16 | .i32 => .i32
  | .i64 | .u8 | .u16 | .u32 => .i64
  | .u64 => .u64
  | .f32 => .f32
  | .f64 => .f64
  | .string => .str
  | .char => .char

def semanticRepresentation : Ty → ValueType
  | .host _ => .hostHandle
  | .reference _ _ => .hostHandle
  | .builtin ty => builtinRepresentation ty
  | .parameter _ _ => .generic
  | .projection _ _ _ _ => .generic
  | .selfType _ => .generic
  | _ => .heapObject

/-- What the verifier asks of the module around a function. -/
structure Checks (P : Type) where
  /-- The public and the named signature match, and the generic body is valid. -/
  signature : Option P → List (Nat × Ty) → Option Ty → Bool
  /-- The type is in scope, within the wire limits and has references only where they may stand. -/
  typeValid : Option P → Ty → Bool
  /-- The source origin is well formed. -/
  origin : Bool
  /-- Both ends of the span are positions of the source text. -/
  position : Span → Bool
  /-- The contract of an operation, from its shape and the semantic types of its inputs and of its
  output. -/
  contract : Instruction P → List (Option Ty) → Option (Option Ty) → Option MirVerificationErrorKind

def Constant.ty : Constant → ValueType
  | .unit => .unit
  | .bool _ => .bool
  | .i32 _ => .i32
  | .i64 _ => .i64
  | .f32 _ => .f32
  | .f64 _ => .f64
  | .u64 _ => .u64
  | .str _ => .str
  | .char _ => .char

section Verify

variable {P : Type} (checks : Checks P) (f : MirFunction P) (context : Context)

namespace MirFunction

def typesValid : Bool :=
  (f.semantic.params.map (·.2) ++ f.semantic.locals.map (·.2) ++ f.semantic.registers.map (·.2) ++
    f.semantic.result.toList).all (checks.typeValid f.semantic.generic)

/-- A physical slot is generic exactly when its semantic type is. -/
def layoutValid (representation : ValueType) (semantic : Option Ty) : Bool :=
  let genericSemantic := semantic.any fun ty => semanticRepresentation ty == .generic
  if representation == .generic || genericSemantic then
    f.semantic.generic.isSome && genericSemantic && representation == .generic
  else true

def genericLayoutValid : Bool :=
  (f.params.zipIdx.all fun (param, i) => f.layoutValid param.ty (f.semantic.params.lookup i)) &&
  (f.locals.zipIdx.all fun (l, i) => f.layoutValid l.ty (f.semantic.locals.lookup i)) &&
  (f.temps.zipIdx.all fun (temp, i) => f.layoutValid temp.ty (f.registerType i)) &&
  f.layoutValid f.returnType f.semantic.result

/-- All source ranges that the function refers to. -/
def sourceSpans : List Span :=
  [⟨0, 0⟩, f.debug.sourceSpan] ++ f.debug.locals.map (·.span) ++ f.debug.capturedBindings ++
    f.blocks.flatMap fun block => block.instructionSpans ++ block.terminatorSpan.toList

end MirFunction

def checkSignature : VerifyM Unit :=
  context.ensure (checks.signature f.semantic.generic f.semantic.params f.semantic.result &&
    f.typesValid checks && f.genericLayoutValid) .invalidParameterLayout

def checkLimits : VerifyM Unit := do
  context.limit f.params.length u16Max "parameters"
  context.limit f.locals.length u16Max "locals"
  context.limit f.temps.length u16Max "temporaries"
  context.limit f.blocks.length u32Max "blocks"

def checkEntry : Except MirVerificationError Unit :=
  context.ensure (f.entry < f.blocks.length) (.invalidBlock f.entry)

def checkParams : List MirParameter → Nat → Except MirVerificationError Unit
  | [], _ => return ()
  | param :: params, index => do
    context.checkCancel
    context.ensure (param.localId = index) .invalidParameterLayout
    let ty ← context.localType f param.localId
    context.expect ty param.ty "parameter local"
    checkParams params (index + 1)

/-- The debug records name each local once, with its type; the locals seen. -/
def checkDebugLocals : List MirLocalDebugInfo → List LocalId →
    Except MirVerificationError (List LocalId)
  | [], seen => return seen
  | info :: locals, seen => do
    context.checkCancel
    context.ensure (info.localId ∉ seen) .invalidDebugMetadata
    let ty ← context.localType f info.localId
    context.expect ty info.ty "debug local"
    context.ensure (info.isParameter = decide (info.localId < f.params.length))
      .invalidDebugMetadata
    checkDebugLocals locals (info.localId :: seen)

/-- The scopes after the root: each has an earlier parent and a local of its own. -/
def checkScopes (debugLocals : List LocalId) :
    List MirLexicalScope → Nat → List LocalId → Except MirVerificationError Unit
  | [], _, _ => return ()
  | scope :: scopes, index, taken => do
    context.checkCancel
    match scope.localId with
    | none => context.error .invalidDebugMetadata
    | some l => do
      context.ensure (scope.parent.any (fun parent => parent < index) && f.params.length ≤ l &&
        l ∉ taken && l ∈ debugLocals) .invalidDebugMetadata
      checkScopes debugLocals scopes (index + 1) (l :: taken)

/-- The scopes a function with these debug records has: the root, and one for each local that is not
a parameter. -/
def expectedScopes : Nat :=
  if f.params.length ≤ f.debug.locals.length then f.debug.locals.length - f.params.length + 1 else 0

def checkDebug : Except MirVerificationError Unit := do
  let debugLocals ← checkDebugLocals f context f.debug.locals []
  context.ensure (f.params.all fun param => param.localId ∈ debugLocals) .invalidDebugMetadata
  context.ensure (f.debug.lexicalScopes.length = expectedScopes f &&
    (f.debug.lexicalScopes.head?).any fun root => root.parent.isNone && root.localId.isNone)
    .invalidDebugMetadata
  checkScopes f context debugLocals f.debug.lexicalScopes.tail 1 []

def checkSpans : VerifyM Unit := do
  context.ensure checks.origin .invalidDebugMetadata
  context.ensure (f.sourceSpans.all fun span =>
    decide (span.start ≤ span.stop) && checks.position span) .invalidDebugMetadata

/-! ## Instructions -/

def checkValues : List MirValue → VerifyM Unit
  | [] => return ()
  | v :: values => do
    context.value f v
    checkValues values

/-- `operation::verify`. -/
def verifyOperation (i : Instruction P) : VerifyM Unit :=
  match i with
  | .loadConst dst constant => context.expect dst.ty constant.ty "constant destination"
  | .loadLocal dst l => do
    let ty ← context.localType f l
    context.expect dst.ty ty "local load"
  | .storeLocal l src => do
    let ty ← context.localType f l
    context.expect src.ty ty "local store"
  | .move dst src => context.expect dst.ty src.ty "move destination"
  | i =>
    match checks.contract i.shape (i.inputs.map fun v => f.registerType v.temp)
        (i.output.map fun v => f.registerType v.temp) with
    | some kind => context.error kind
    | none => return ()

/-- The instructions of a block; the effects of those seen. -/
def verifyInstructions (block : BasicBlock P) :
    List (Instruction P) → Nat → EffectSet → VerifyM EffectSet
  | [], _, effects => return effects
  | i :: code, index, effects => do
    let context := { context with instruction := some index, span := block.instructionSpans[index]? }
    context.checkCancel
    checkValues f context i.inputs
    checkValues f context i.output.toList
    verifyOperation checks f context i
    verifyInstructions block code (index + 1) (effects.union i.effects)

def checkTargets : List BlockId → VerifyM Unit
  | [] => return ()
  | target :: targets => do
    context.ensure (target < f.blocks.length) (.invalidBlock target)
    checkTargets targets

def verifyTerminatorInput : Terminator → VerifyM Unit
  | .ret value => do
    context.ensure (f.returnType ≠ .never)
      (.contract (.invalidOperation "Never function cannot return"))
    checkValues f context value.toList
    context.expect (value.elim .unit (·.ty)) f.returnType "return value"
  | .branch cond _ _ => do
    context.value f cond
    context.expect cond.ty .bool "branch condition"
  | .jump _ => return ()
  | .unreachable => return ()

def verifyTerminator (terminator : Terminator) : VerifyM Unit := do
  checkTargets f context terminator.successors
  verifyTerminatorInput f context terminator

/-- The columns have one length, and every scope exists. -/
def BasicBlock.debugValid (scopes : Nat) (block : BasicBlock P) : Bool :=
  block.instructions.length == block.instructionSpans.length &&
  block.instructions.length == block.instructionScopes.length &&
  block.terminatorScope.isSome &&
  (block.instructionScopes ++ block.terminatorScope.toList).all (· < scopes)

def verifyBlocks : List (BasicBlock P) → BlockId → Nat → EffectSet → VerifyM EffectSet
  | [], _, _, effects => return effects
  | block :: blocks, index, count, effects => do
    let context := { context with block := some index }
    context.checkCancel
    let count := count + block.instructions.length + 1
    context.limit count u32Max "instructions"
    context.ensure (block.debugValid f.debug.lexicalScopes.length) .invalidDebugMetadata
    match block.terminator with
    | none => context.error .missingTerminator
    | some terminator => do
      let effects ← verifyInstructions checks f context block block.instructions 0 effects
      verifyTerminator f { context with span := block.terminatorSpan } terminator
      verifyBlocks blocks (index + 1) count (effects.union terminator.effects)

def checkEffects (effects : EffectSet) : VerifyM Unit :=
  context.ensure (f.effects.union effects = f.effects) .missingEffects

/-- `verify_function`. -/
def verifyFunction : VerifyM (FunctionAnalysis f.width) := do
  checkSignature checks f context
  checkLimits f context
  checkEntry f context
  checkParams f context f.params 0
  checkDebug f context
  checkSpans checks f context
  let effects ← verifyBlocks checks f context f.blocks 0 0 {}
  checkEffects f context effects
  checkSize f context
  reserve f context
  let initialized ← verifyFlow f context
  let analysis ← buildAnalysis f context initialized
  verifySuspension f context analysis
  return analysis

/-- The verifier accepts the function. -/
def Accepted : Prop :=
  ∃ budget out, (verifyFunction checks f context).run budget = .ok out

end Verify

/-- Checks that accept everything outside the function. -/
def openChecks : Checks Unit where
  signature _ _ _ := true
  typeValid _ _ := true
  origin := true
  position _ := true
  contract _ _ _ := none

end Kagari.Mir
